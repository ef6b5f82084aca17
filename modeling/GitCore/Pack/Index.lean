import GitCore.Midx.Chunks

/-! # The index of a pack

`write_idx_file` writes the object ids of a pack with their offsets, in one of two formats:

* version 1 has a fan-out table and a table of offsets with ids. An offset has 32 bits.
* version 2 has a header, the fan-out table, and tables of ids, checksums and offsets. An offset
  that `need_large_offset` picks is found in one more table of 64-bit offsets, and its word in the
  table of offsets has the place there.

`load_idx` checks the size of the file and its fan-out table before anything is looked up. The index
is written to a new file (`WRITE_IDX_VERIFY` is not set). -/

namespace GitCore.Pack

open Notes (HashAlgo Oid)
open Midx (firstByte hashcmp oidcmp)
open Reftable (Bytes putBe32 putBe64 getBe32 getBe64)

variable {algo : HashAlgo}

/-! ## Writing -/

/-- `struct pack_idx_entry`; the offset is an `off_t` that is not negative. -/
structure PackIdxEntry (algo : HashAlgo) where
  oid : Oid algo
  crc32 : UInt32
  offset : UInt64
  offset_lt : offset.toNat < 2 ^ 63

/-- `struct pack_idx_option` -/
structure PackIdxOption where
  /-- `WRITE_IDX_STRICT` of `flags` -/
  strict : Bool
  version : UInt32
  off32Limit : UInt32
  anomaly : List UInt32

/-- `need_large_offset` -/
def needLargeOffset (offset : UInt64) (opts : PackIdxOption) : Bool :=
  if offset >>> 31 ≠ 0 ∨ opts.off32Limit.toUInt64 < offset then true
  else if opts.anomaly.length = 0 then false
  else (binarySearch (fun anomaly => compare offset.toUInt32 anomaly) opts.anomaly).isLeft

/-- `last_obj_offset` -/
def lastObjOffset (objects : List (PackIdxEntry algo)) : UInt64 :=
  objects.foldl (fun last obj => if last < obj.offset then obj.offset else last) 0

/-- `sorted_by_sha` -/
def sortedBySha (objects : List (PackIdxEntry algo)) : List (PackIdxEntry algo) :=
  objects.insertionSort fun a b => oidcmp a.oid b.oid ≤ 0

/-- `index_version` -/
def indexVersion (opts : PackIdxOption) (objects : List (PackIdxEntry algo)) : UInt32 :=
  if needLargeOffset (lastObjOffset objects) opts then 2 else opts.version

/-- `PACK_IDX_SIGNATURE` -/
def packIdxSignature : Nat := 0xff744f63

/-- `struct pack_idx_header` -/
def writeHeader (version : UInt32) : Bytes := putBe32 packIdxSignature ++ putBe32 version.toNat

/-- The first-level table. -/
def writeFanout (list : List (PackIdxEntry algo)) : Bytes :=
  (fanoutLoop (fun obj => firstByte obj.oid) 256 0 list 0).flatMap putBe32

/-- What is written for an object in the loop over the ids. -/
def idEntry (version : UInt32) (obj : PackIdxEntry algo) : Bytes :=
  if version < 2 then putBe32 obj.offset.toUInt32.toNat ++ obj.oid.1 else obj.oid.1

/-- The loop over the ids, after the id `before`; `none` where an object appears twice and the
function dies. -/
def writeIds (strict : Bool) (version : UInt32) :
    Option (Oid algo) → List (PackIdxEntry algo) → Option Bytes
  | _, [] => some []
  | before, obj :: list =>
    if strict ∧ before = some obj.oid then none
    else (writeIds strict version (some obj.oid) list).map (idEntry version obj ++ ·)

/-- The crc32 table. -/
def writeCrc32 (list : List (PackIdxEntry algo)) : Bytes :=
  list.flatMap fun obj => putBe32 obj.crc32.toNat

/-- The 32-bit offset table, and `nr_large_offset` behind it. -/
def writeOffsets (opts : PackIdxOption) : List (PackIdxEntry algo) → UInt32 → Bytes × UInt32
  | [], nrLargeOffset => ([], nrLargeOffset)
  | obj :: list, nrLargeOffset =>
    if needLargeOffset obj.offset opts then
      let rest := writeOffsets opts list (nrLargeOffset + 1)
      (putBe32 (0x80000000 ||| nrLargeOffset).toNat ++ rest.1, rest.2)
    else
      let rest := writeOffsets opts list nrLargeOffset
      (putBe32 obj.offset.toUInt32.toNat ++ rest.1, rest.2)

/-- The large offset table; `none` if the loop leaves the list. -/
def writeLargeOffsets (opts : PackIdxOption) : List (PackIdxEntry algo) → Nat → Option Bytes
  | _, 0 => some []
  | [], _ + 1 => none
  | obj :: list, nrLargeOffset + 1 =>
    if !needLargeOffset obj.offset opts then writeLargeOffsets opts list (nrLargeOffset + 1)
    else (writeLargeOffsets opts list nrLargeOffset).map (putBe64 obj.offset ++ ·)

/-- The tables behind the ids. -/
def writeTables (opts : PackIdxOption) (version : UInt32) (list : List (PackIdxEntry algo)) :
    Option Bytes :=
  if 2 ≤ version then
    let offsets := writeOffsets opts list 0
    (writeLargeOffsets opts list offsets.2.toNat).map fun large =>
      writeCrc32 list ++ (offsets.1 ++ large)
  else some []

/-- `write_idx_file`: the contents of the file, with the hash function of the repository for the
checksum at its end. -/
def writeIdxFile (hash : Bytes → Oid algo) (objects : List (PackIdxEntry algo))
    (opts : PackIdxOption) (sha1 : Oid algo) : Option Bytes :=
  let list := sortedBySha objects
  let version := indexVersion opts objects
  (writeIds opts.strict version none list).bind fun ids =>
    (writeTables opts version list).map fun tables =>
      let contents := (if 2 ≤ version then writeHeader version else []) ++
        (writeFanout list ++ (ids ++ (tables ++ sha1.1)))
      contents ++ (hash contents).1

/-! ## Reading -/

/-- The errors of `load_idx`. -/
inductive IdxError
  /-- "index file %s is too small" -/
  | tooSmall
  /-- "index file %s is version %u and is not supported by this binary" -/
  | notSupported (version : Nat)
  /-- "non-monotonic index %s" -/
  | nonMonotonic
  /-- "wrong index v1 file size in %s" -/
  | wrongSizeV1
  /-- "wrong index v2 file size in %s" -/
  | wrongSizeV2
deriving DecidableEq

/-- What `load_idx` sets in a `struct packed_git`. -/
structure PackedGit where
  indexVersion : Nat
  indexData : Bytes
  numObjects : Nat
deriving DecidableEq

/-- The loop over the fan-out table for `n` more entries from `i` on: the last entry, if there is
no smaller one behind a greater one. -/
def checkFanout (index : Bytes) : Nat → Nat → Nat → Option Nat
  | 0, _, nr => some nr
  | n + 1, i, nr =>
    match getBe32 (index.drop (4 * i)) with
    | none => none
    | some entry => if entry < nr then none else checkFanout index n (i + 1) entry

/-- `load_idx` -/
def loadIdx (hashsz : Nat) (idxMap : Bytes) : Except IdxError PackedGit :=
  if idxMap.length < 4 * 256 + hashsz + hashsz then .error .tooSmall
  else
    let version :=
      if getBe32 idxMap = some packIdxSignature then (getBe32 (idxMap.drop 4)).getD 0 else 1
    if getBe32 idxMap = some packIdxSignature ∧ version ≠ 2 then .error (.notSupported version)
    else
      match checkFanout (if 1 < version then idxMap.drop 8 else idxMap) 256 0 0 with
      | none => .error .nonMonotonic
      | some nr =>
        if version = 1 then
          if idxMap.length ≠ 4 * 256 + hashsz + hashsz + nr * (hashsz + 4) then
            .error .wrongSizeV1
          else .ok ⟨version, idxMap, nr⟩
        else
          let minSize := 8 + 4 * 256 + hashsz + hashsz + nr * (hashsz + 4 + 4)
          let maxSize := if nr ≠ 0 then minSize + (nr - 1) * 8 else minSize
          if idxMap.length < minSize ∨ maxSize < idxMap.length then .error .wrongSizeV2
          else .ok ⟨version, idxMap, nr⟩

/-- `open_pack_index` for the contents of the file -/
def openPackIndex (algo : HashAlgo) (idxFile : Bytes) : Option PackedGit :=
  (loadIdx algo.rawsz idxFile).toOption

/-- `bsearch_hash`: the position of the id, or the one it would have. -/
def bsearchHash (oid : Oid algo) (fanoutNbo table : Bytes) (stride : Nat) : Option (Nat ⊕ Nat) :=
  match getBe32 (fanoutNbo.drop (4 * firstByte oid)),
      if firstByte oid = 0 then some 0 else getBe32 (fanoutNbo.drop (4 * (firstByte oid - 1))) with
  | some hi, some lo =>
    some (binarySearchLoop (fun mi => hashcmp oid.1 ((table.drop (stride * mi)).take algo.rawsz))
      (hi - lo) lo hi)
  | _, _ => none

/-- `bsearch_pack` -/
def bsearchPack (oid : Oid algo) (p : PackedGit) : Option (Nat ⊕ Nat) :=
  if p.indexVersion = 1 then
    bsearchHash oid p.indexData (p.indexData.drop (4 * 256 + 4)) (algo.rawsz + 4)
  else bsearchHash oid (p.indexData.drop 8) (p.indexData.drop (4 * 256 + 8)) algo.rawsz

/-- `nth_packed_object_id` of an open index, `none` for `-1` -/
def nthPackedObjectId (algo : HashAlgo) (p : PackedGit) (n : Nat) : Option Bytes :=
  if n ≥ p.numObjects then none
  else if p.indexVersion = 1 then
    some ((p.indexData.drop (4 * 256 + ((algo.rawsz + 4) * n + 4))).take algo.rawsz)
  else some ((p.indexData.drop (4 * 256 + 8 + algo.rawsz * n)).take algo.rawsz)

/-- `check_pack_index_ptr` does not die -/
def checkPackIndexPtr (p : PackedGit) (ptr : Nat) : Bool := !decide (ptr ≥ p.indexData.length - 8)

/-- `nth_packed_object_offset`; `none` where it dies or reads beyond the file -/
def nthPackedObjectOffset (algo : HashAlgo) (p : PackedGit) (n : Nat) : Option UInt64 :=
  let index := 4 * 256
  if p.indexVersion = 1 then
    (getBe32 (p.indexData.drop (index + (algo.rawsz + 4) * n))).map UInt64.ofNat
  else
    let index := index + (8 + p.numObjects * (algo.rawsz + 4))
    (getBe32 (p.indexData.drop (index + 4 * n))).bind fun word =>
      let off := UInt32.ofNat word
      if off &&& 0x80000000 = 0 then some off.toUInt64
      else
        let index := index + (p.numObjects * 4 + 8 * (off &&& 0x7fffffff).toNat)
        if checkPackIndexPtr p index then getBe64 (p.indexData.drop index) else none

/-- `find_pack_entry_one` for a pack whose index is not open yet; `none` where it dies -/
def findPackEntryOne (oid : Oid algo) (idxFile : Bytes) : Option UInt64 :=
  match openPackIndex algo idxFile with
  | none => some 0
  | some p =>
    match bsearchPack oid p with
    | none => none
    | some (.inl result) => nthPackedObjectOffset algo p result
    | some (.inr _) => some 0

/-! ## Large offsets -/

variable {opts : PackIdxOption}

/-- An offset that needs no large entry has 31 bits. -/
theorem toNat_lt_of_not_needLargeOffset {offset : UInt64}
    (h : needLargeOffset offset opts = false) : offset.toNat < 2 ^ 31 := by
  by_contra hge
  have hshift : offset >>> 31 ≠ 0 := by
    rw [ne_eq, ← UInt64.toNat_inj, UInt64.toNat_shiftRight]
    change ¬ offset.toNat >>> 31 = 0
    omega
  rw [needLargeOffset, if_pos (.inl hshift)] at h
  cases h

variable {objects : List (PackIdxEntry algo)}

/-- **The last offset** is the one of an object, and no object is behind it. -/
theorem lastObjOffset_spec (hne : objects ≠ []) :
    (∃ obj ∈ objects, obj.offset = lastObjOffset objects) ∧
      ∀ obj ∈ objects, obj.offset ≤ lastObjOffset objects := by
  obtain ⟨-, hle, hmem⟩ := foldl_greatest PackIdxEntry.offset objects 0
  refine ⟨?_, hle⟩
  rcases hmem with hzero | hmem
  · -- all offsets are zero
    obtain ⟨obj, hobj⟩ := List.exists_mem_of_ne_nil _ hne
    refine ⟨obj, hobj, le_antisymm (hle obj hobj) ?_⟩
    rw [lastObjOffset, hzero]
    exact UInt64.zero_le
  · exact hmem

/-- **Version 1 is only used when all offsets fit** in 31 bits. -/
theorem offset_lt_of_indexVersion (h : indexVersion opts objects ≠ 2) {obj : PackIdxEntry algo}
    (hobj : obj ∈ objects) : obj.offset.toNat < 2 ^ 31 := by
  unfold indexVersion at h
  split at h
  · exact absurd rfl h
  rename_i hlast
  rw [Bool.not_eq_true] at hlast
  have hlt := toNat_lt_of_not_needLargeOffset hlast
  have hle := (lastObjOffset_spec (List.ne_nil_of_mem hobj)).2 obj hobj
  exact (UInt64.le_iff_toNat_le.mp hle).trans_lt hlt

/-- With version 1 the last object needs no large entry. -/
theorem exists_not_needLargeOffset (hne : objects ≠ []) (h : indexVersion opts objects ≠ 2) :
    ∃ obj ∈ objects, needLargeOffset obj.offset opts = false := by
  obtain ⟨obj, hobj, heq⟩ := (lastObjOffset_spec hne).1
  unfold indexVersion at h
  grind

end GitCore.Pack
