import GitCore.Reftable.Codec

/-! # Blocks

A block is a header with its type and length, the records in the order of their keys, a list of
restart points and their number. The key of a record is stored without the prefix that it shares
with the key before it, except at restart points. The blocks of log records are compressed. -/

namespace GitCore.Reftable

/-- `REFTABLE_BLOCK_TYPE_REF` and the others -/
inductive BlockType where
  | ref
  | log
  | obj
  | index
deriving DecidableEq, Repr

/-- The byte that stands for a type in a block. -/
def BlockType.byte : BlockType → UInt8
  | .ref => 0x72
  | .log => 0x67
  | .obj => 0x6f
  | .index => 0x69

/-- `reftable_is_block_type`, with the type. -/
def BlockType.ofByte (byte : UInt8) : Option BlockType :=
  if byte = 0x72 then some .ref
  else if byte = 0x67 then some .log
  else if byte = 0x6f then some .obj
  else if byte = 0x69 then some .index
  else none

@[simp] theorem BlockType.ofByte_byte (type : BlockType) : ofByte type.byte = some type := by
  cases type <;> rfl

/-- The records of a block of the given type. -/
abbrev BlockRecord (hashSize : Nat) : BlockType → Type
  | .ref => RefRecord hashSize
  | .log => LogRecord hashSize
  | .obj => ObjRecord
  | .index => IndexRecord

/-- `reftable_record_vtable` -/
def recordCodec (hashSize : Nat) : (type : BlockType) → RecordCodec (BlockRecord hashSize type)
  | .ref => refRecordCodec hashSize
  | .log => logRecordCodec hashSize
  | .obj => objRecordCodec
  | .index => indexRecordCodec

/-- Every codec but that of log records, which stores `NULL` as an empty string, is lawful. -/
theorem recordCodec_lawful (hashSize : Nat) {type : BlockType} (h : type ≠ .log) :
    (recordCodec hashSize type).Lawful := by
  cases type with
  | ref => exact inferInstanceAs (refRecordCodec hashSize).Lawful
  | log => exact absurd rfl h
  | obj => exact inferInstanceAs objRecordCodec.Lawful
  | index => exact inferInstanceAs indexRecordCodec.Lawful

/-- `zlib`, which is not part of the library. -/
structure Zlib where
  /-- The compressed data. Given a buffer of the size of `deflateBound`, `deflate` cannot fail. -/
  deflate : Bytes → Bytes
  /-- The data restored from the start of the input, at most as many bytes as given, and the number
  of bytes of the input that they took. -/
  inflate : Bytes → Nat → Option (Bytes × Nat)
  /-- The checksum. -/
  crc32 : Bytes → UInt32

/-! ## Keys -/

/-- The number that holds the length of a suffix and the three bits of the value type. -/
def suffixField (suffixLen : Nat) (extra : UInt8) : UInt64 :=
  UInt64.ofNat suffixLen <<< 3 ||| extra.toUInt64

/-- `reftable_encode_key`: the bytes, and whether the key is stored in full. -/
def encodeKey (room : Nat) (prevKey key : Bytes) (extra : UInt8) :
    Except ReftableError (Bytes × Bool) := do
  let prefixLen := commonPrefixSize prevKey key
  let suffixLen := key.length - prefixLen
  let n ← putVarInt room (UInt64.ofNat prefixLen)
  let room := room - n.length
  let n' ← putVarInt room (suffixField suffixLen extra)
  let room := room - n'.length
  if room < suffixLen then .error .entryTooBig
  else .ok (n ++ n' ++ key.drop prefixLen, prefixLen == 0)

/-- `reftable_decode_keylen`: the length of the prefix, that of the suffix, the value type and the
bytes behind. -/
def decodeKeylen (input : Bytes) : Option (Nat × Nat × UInt8 × Bytes) := do
  let (prefixLen, input) ← getVarInt input
  let (field, input) ← getVarInt input
  some (prefixLen.toNat, (field >>> 3).toNat, (field &&& 0x7).toUInt8, input)

/-- `reftable_decode_key`: the key, the value type and the bytes behind. -/
def decodeKey (lastKey input : Bytes) : Option (Bytes × UInt8 × Bytes) := do
  let (prefixLen, suffixLen, extra, input) ← decodeKeylen input
  if input.length < suffixLen ∨ lastKey.length < prefixLen then none
  else some (lastKey.take prefixLen ++ input.take suffixLen, extra, input.drop suffixLen)

/-! ## Writing -/

/-- `MAX_RESTARTS` -/
def maxRestarts : Nat := (1 <<< 16) - 1

/-- `struct block_writer` -/
structure BlockWriter where
  /-- The type of the block. -/
  type : BlockType
  /-- How large the block may become. -/
  blockSize : Nat
  /-- Where the header of the block starts; the first block of a table stands behind the header
  of the table. -/
  headerOff : Nat
  /-- How many entries share a restart point at most. -/
  restartInterval : Nat
  /-- The records, the bytes behind the header of the block up to `next`. -/
  body : Bytes
  /-- The restart points. -/
  restarts : List Nat
  /-- The number of records. -/
  entries : Nat
  /-- The key of the last record. -/
  lastKey : Bytes
  /-- A restart interval of zero is replaced by the default. -/
  restartInterval_pos : 0 < restartInterval
  /-- The records are inside the block. -/
  next_le : headerOff + 4 + body.length ≤ blockSize

/-- Where the next record goes. -/
def BlockWriter.next (w : BlockWriter) : Nat := w.headerOff + 4 + w.body.length

/-- `block_writer_init` with the restart interval that the caller sets afterwards; `none` when that
is zero, or when the header of the block does not fit into it. -/
def blockWriterInit (type : BlockType) (blockSize headerOff restartInterval : Nat) :
    Option BlockWriter :=
  if h : 0 < restartInterval ∧ headerOff + 4 ≤ blockSize then
    some ⟨type, blockSize, headerOff, restartInterval, [], [], 0, [], h.1, h.2⟩
  else none

/-- The restart points with the next record, of which there are never more than `MAX_RESTARTS`. -/
def BlockWriter.restartsWith (w : BlockWriter) (isRestart : Bool) : List Nat :=
  if isRestart ∧ w.restarts.length < maxRestarts then w.restarts ++ [w.next] else w.restarts

/-- `block_writer_register_restart` for a record of the given bytes. -/
def blockWriterRegisterRestart (w : BlockWriter) (bytes : Bytes) (isRestart : Bool) (key : Bytes) :
    Except ReftableError BlockWriter :=
  if h : w.blockSize - w.next < 2 + 3 * (w.restartsWith isRestart).length + bytes.length then
    .error .entryTooBig
  else .ok
    { w with
      body := w.body ++ bytes
      restarts := w.restartsWith isRestart
      entries := w.entries + 1
      lastKey := key
      next_le := by
        have hle := w.next_le
        unfold BlockWriter.next at h
        rw [List.length_append]
        omega }

/-- `block_writer_add` -/
def blockWriterAdd {α : Type} (codec : RecordCodec α) (w : BlockWriter) (record : α) :
    Except ReftableError BlockWriter := do
  let last := if w.entries % w.restartInterval = 0 then [] else w.lastKey
  let room := w.blockSize - w.next
  let key := codec.key record
  if key = [] then .error .api
  else do
    let (n, isRestart) ← encodeKey room last key (codec.valType record)
    let value ← codec.encode (room - n.length) record
    blockWriterRegisterRestart w (n ++ value) isRestart key

/-- The records that `block_writer_add` accepts, one after the other, and the writer then. -/
def blockWriterAddAll {α : Type} (codec : RecordCodec α) :
    BlockWriter → List α → BlockWriter × List α
  | w, [] => (w, [])
  | w, record :: records =>
    match blockWriterAdd codec w record with
    | .error _ => blockWriterAddAll codec w records
    | .ok w' =>
      let (w'', accepted) := blockWriterAddAll codec w' records
      (w'', record :: accepted)

/-- What a block consists of behind its header. -/
def BlockWriter.payload (w : BlockWriter) : Bytes :=
  w.body ++ w.restarts.flatMap putBe24 ++ putBe16 w.restarts.length

/-- `block_writer_finish`: the block, behind the `header_off` bytes of the table's header. -/
def blockWriterFinish (zlib : Zlib) (header : Bytes) (w : BlockWriter) : Bytes :=
  header ++ (w.type.byte :: putBe24 (w.headerOff + 4 + w.payload.length)) ++
    if w.type = .log then zlib.deflate w.payload else w.payload

/-! ## Reading -/

/-- `struct reftable_block` -/
structure Block where
  /-- The bytes, uncompressed. -/
  data : Bytes
  /-- The type of the block. -/
  type : BlockType
  /-- Where the header of the block starts. -/
  headerOff : Nat
  /-- Where the restart points start. -/
  restartOff : Nat
  /-- The number of restart points. -/
  restartCount : Nat
  /-- The number of bytes the block takes in the table, including padding. -/
  fullBlockSize : Nat
deriving DecidableEq

/-- `DEFAULT_BLOCK_SIZE` -/
def defaultBlockSize : Nat := 4096

/-- `read_block` -/
def readBlock (source : Bytes) (off sz : Nat) : Bytes := (source.drop off).take sz

/-- The end of `reftable_block_init`, once the block is read and uncompressed. An access outside of
the data is an error here. -/
def blockSetup (data : Bytes) (type : BlockType) (headerSize blockSize fullBlockSize : Nat) :
    Except ReftableError (Option Block) :=
  match getBe16 (data.drop (blockSize - 2)) with
  | none => .error .unnamed
  | some restartCount =>
    if blockSize < 2 + 3 * restartCount then .error .unnamed
    else .ok (some ⟨data, type, headerSize, blockSize - 2 - 3 * restartCount, restartCount,
      fullBlockSize⟩)

/-- The part of `reftable_block_init` behind the reading of the block. -/
def blockUncompress (zlib : Zlib) (data : Bytes) (type : BlockType)
    (headerSize tableBlockSize blockSize : Nat) : Except ReftableError (Option Block) :=
  if type = .log then
    let skip := 4 + headerSize
    match zlib.inflate (data.drop skip) (blockSize - skip) with
    | none => .error .zlib
    | some (uncompressed, taken) =>
      if uncompressed.length + skip ≠ blockSize then .error .format
      else blockSetup (data.take skip ++ uncompressed) type headerSize blockSize (taken + skip)
  else
    -- the block is padded, or the next one follows at once
    let fullBlockSize :=
      if tableBlockSize = 0 then blockSize
      else if blockSize < tableBlockSize ∧ (data[blockSize]?).any (· ≠ 0) then blockSize
      else tableBlockSize
    blockSetup data type headerSize blockSize fullBlockSize

/-- `reftable_block_init`; `none` when the block is of another type than wanted. The offset is an
`uint32_t`. An access outside of the data is an error here. -/
def blockInit (zlib : Zlib) (source : Bytes) (offset headerSize tableBlockSize : Nat)
    (wantType : Option BlockType) : Except ReftableError (Option Block) :=
  let offset := offset % 2 ^ 32
  let guessBlockSize := if tableBlockSize ≠ 0 then tableBlockSize else defaultBlockSize
  let data := readBlock source offset guessBlockSize
  match data[headerSize]? with
  | none => .error .unnamed
  | some byte =>
    match BlockType.ofByte byte with
    | none => .error .format
    | some type =>
      if wantType ≠ none ∧ some type ≠ wantType then .ok none
      else
        match getBe24 (data.drop (headerSize + 1)) with
        | none => .error .unnamed
        | some blockSize =>
          blockUncompress zlib
            (if guessBlockSize < blockSize then readBlock source offset blockSize else data)
            type headerSize tableBlockSize blockSize

/-- `struct block_iter` -/
structure BlockIter where
  /-- The key of the record before. -/
  lastKey : Bytes
  /-- Where the next record starts. -/
  nextOff : Nat
deriving DecidableEq

/-- `block_iter_seek_start` -/
def blockIterSeekStart (block : Block) : BlockIter := ⟨[], block.headerOff + 4⟩

/-- The bytes from an offset up to the restart points. -/
def Block.view (block : Block) (off : Nat) : Bytes :=
  (block.data.drop off).take (block.restartOff - off)

/-- `block_restart_offset` -/
def blockRestartOffset (block : Block) (idx : Nat) : Option Nat :=
  getBe24 (block.data.drop (block.restartOff + 3 * idx))

/-- `block_iter_next`; `none` at the end. -/
def blockIterNext {α : Type} (codec : RecordCodec α) (block : Block) (it : BlockIter) :
    Except ReftableError (Option (α × BlockIter)) :=
  if block.restartOff ≤ it.nextOff then .ok none
  else
    let input := block.view it.nextOff
    match decodeKey it.lastKey input with
    | none => .error .unnamed
    | some (key, extra, rest) =>
      if key = [] then .error .format
      else
        match codec.decode key extra rest with
        | .error _ => .error .unnamed
        | .ok (record, rest) => .ok (some (record, ⟨key, it.nextOff + (input.length - rest.length)⟩))

/-- `restart_needle_less`: whether the needle is below the key at a restart point. -/
def restartNeedleLess (block : Block) (needle : Bytes) (idx : Nat) : Option Bool := do
  let off ← blockRestartOffset block idx
  let (prefixLen, suffixLen, _, input) ← decodeKeylen (block.view off)
  if prefixLen ≠ 0 ∨ input.length < suffixLen then none
  else some (decide (needle < input.take suffixLen))

/-- The loop of `block_iter_seek_key`: it goes one record too far and then steps back, leaving the
key of the record ahead in `last_key`. -/
def seekKeyLoop {α : Type} (codec : RecordCodec α) (block : Block) (want : Bytes) :
    Nat → BlockIter → Except ReftableError BlockIter
  | 0, _ => .error .unnamed
  | fuel + 1, it =>
    match blockIterNext codec block it with
    | .error e => .error e
    | .ok none => .ok it
    | .ok (some (record, it')) =>
      if codec.key record < want then
        seekKeyLoop codec block want fuel ⟨codec.key record, it'.nextOff⟩
      else .ok ⟨codec.key record, it.nextOff⟩

/-- `block_iter_seek_key`. Where the search for a restart point fails, it leaves before
`reftable_record_init`, and what it releases is not initialised. -/
def blockIterSeekKey {α : Type} (codec : RecordCodec α) (block : Block) (it : BlockIter)
    (want : Bytes) : Except ReftableError BlockIter :=
  match binsearch block.restartCount (restartNeedleLess block want) with
  | none => .error .undefined
  | some i =>
    match if 0 < i then blockRestartOffset block (i - 1) else some (block.headerOff + 4) with
    | none => .error .unnamed
    | some off => seekKeyLoop codec block want (block.restartOff + 1) ⟨it.lastKey, off⟩

end GitCore.Reftable
