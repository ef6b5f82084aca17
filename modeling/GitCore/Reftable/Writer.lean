import GitCore.Reftable.Block
import GitCore.Reftable.StoredTable

/-! # The table writer

A table consists of a section with ref records, a section with the objects they refer to and a
section with log records. Each section is a sequence of blocks, followed by an index when there are
more than a few of them: a level of the index has a record for every block of the level below, and
the highest level comes last. The header of the table stands in its first block, the footer at its
end says where the sections start.

The function that the writer passes its data to is a buffer here, to which writing always
succeeds. -/

namespace GitCore.Reftable

/-! ## Options -/

/-- `enum reftable_hash` -/
inductive HashId where
  | sha1
  | sha256
deriving DecidableEq, Repr

/-- `hash_size` -/
def HashId.size : HashId → Nat
  | .sha1 => 20
  | .sha256 => 32

/-- `writer_version` -/
def HashId.version : HashId → Nat
  | .sha1 => 1
  | .sha256 => 2

/-- `header_size` -/
def headerSize (version : Nat) : Nat := if version = 1 then 24 else 28

/-- `footer_size` -/
def footerSize (version : Nat) : Nat := if version = 1 then 68 else 72

/-- `REFTABLE_FORMAT_ID_SHA1` and `REFTABLE_FORMAT_ID_SHA256` -/
def HashId.formatId : HashId → Nat
  | .sha1 => 0x73686131
  | .sha256 => 0x73323536

/-- The options of a writer. Below the given size of a block, headers are written outside of it. -/
structure WriterOptions where
  /-- Do not pad blocks to the block size. -/
  unpadded : Bool
  /-- The block size. -/
  blockSize : Nat
  /-- Do not write the object section. -/
  skipIndexObjects : Bool
  /-- How often to write complete keys. -/
  restartInterval : Nat
  /-- The hash function. -/
  hashId : HashId
  /-- Do not tidy up log messages. -/
  exactLogMessage : Bool
  /-- A block size fits into three bytes. -/
  blockSize_lt : blockSize < 2 ^ 24
  /-- A block has room for the headers. -/
  headers_le : headerSize hashId.version + 4 ≤ blockSize
  /-- Restart points are written. -/
  restartInterval_pos : 0 < restartInterval

/-- The records of a section -/
abbrev WriterOptions.Record (opts : WriterOptions) (type : BlockType) : Type :=
  BlockRecord opts.hashId.size type

/-- How the records of a section are encoded -/
abbrev WriterOptions.codec (opts : WriterOptions) (type : BlockType) :
    RecordCodec (opts.Record type) :=
  recordCodec opts.hashId.size type

/-! ## The state -/

/-- `struct reftable_block_stats`, as far as the writer uses it. -/
structure BlockStats where
  /-- Number of blocks. -/
  blocks : Nat
  /-- Number of index blocks. -/
  indexBlocks : Nat
  /-- Offset of the first block, zero if that is the start of the table. -/
  offset : Nat
  /-- Offset of the top level index block, zero if there is no index. -/
  indexOffset : Nat

/-- `struct reftable_writer` -/
structure Writer where
  /-- `min_update_index` -/
  minUpdateIndex : UInt64
  /-- `max_update_index` -/
  maxUpdateIndex : UInt64
  /-- What was written. -/
  out : Bytes
  /-- The number of zeros that go before the next write. -/
  pendingPadding : Nat
  /-- The offset of the next block. -/
  next : Nat
  /-- The last key, to check that records are added in ascending order. -/
  lastKey : Bytes
  /-- The block that is being written. -/
  blockWriter : Option BlockWriter
  /-- The index records for the blocks of the current section. -/
  index : List IndexRecord
  /-- What is known about the blocks of each type. -/
  stats : BlockType → BlockStats
  /-- `stats.object_id_len` -/
  objectIdLen : Nat
  /-- `obj_index_tree` in the order of `infix_walk`: the objects with the offsets of the blocks that
  refer to them. -/
  objIndexTree : List (Bytes × List UInt64)

/-- An operation of the writer. It leaves a writer behind even when it fails. -/
abbrev WriterM := EStateM ReftableError Writer

section Operations

variable (zlib : Zlib) (opts : WriterOptions)

/-! ## Blocks -/

/-- `padded_write` -/
def paddedWrite (data : Bytes) (padding : Nat) (w : Writer) : Writer :=
  { w with
    out := w.out ++ List.replicate w.pendingPadding 0 ++ data
    pendingPadding := padding }

/-- `writer_write_header` -/
def writerWriteHeader (w : Writer) : Bytes :=
  [0x52, 0x45, 0x46, 0x54] ++ UInt8.ofNat opts.hashId.version :: putBe24 opts.blockSize ++
    putBe64 w.minUpdateIndex ++ putBe64 w.maxUpdateIndex ++
    if opts.hashId.version = 2 then putBe32 opts.hashId.formatId else []

/-- `writer_reinit_block_writer`. The last key is forgotten. -/
def writerReinitBlockWriter (type : BlockType) (w : Writer) : Writer :=
  let blockStart := if w.next = 0 then headerSize opts.hashId.version else 0
  { w with
    lastKey := []
    blockWriter := blockWriterInit type opts.blockSize blockStart opts.restartInterval }

/-- `writer_flush_nonempty_block` -/
def writerFlushNonemptyBlock (bw : BlockWriter) (w : Writer) : Writer :=
  let header := if w.next = 0 then writerWriteHeader opts w else []
  let raw := blockWriterFinish zlib header bw
  let padding := if ¬ opts.unpadded ∧ bw.type ≠ .log then opts.blockSize - raw.length else 0
  let stats := w.stats bw.type
  let blockTypOff := if stats.blocks = 0 then w.next else 0
  { paddedWrite raw padding w with
    stats := Function.update w.stats bw.type
      { stats with
        offset := if 0 < blockTypOff then blockTypOff else stats.offset
        blocks := stats.blocks + 1 }
    index := w.index ++ [⟨UInt64.ofNat w.next, bw.lastKey⟩]
    next := w.next + padding + raw.length
    blockWriter := none }

/-- `writer_flush_block` -/
def writerFlushBlock (w : Writer) : Writer :=
  match w.blockWriter with
  | none => w
  | some bw => if bw.entries = 0 then w else writerFlushNonemptyBlock zlib opts bw w

/-- `block_writer_add` on the block that is being written. -/
def currentBlockAdd (type : BlockType) (record : BlockRecord opts.hashId.size type) :
    WriterM Unit := fun w =>
  match w.blockWriter with
  | none => .error .unnamed w
  | some bw =>
    match blockWriterAdd (recordCodec opts.hashId.size type) bw record with
    | .ok bw' => .ok () { w with blockWriter := some bw' }
    | .error e => .error e w

/-- Tries again in another way when an entry is too big. -/
def onTooBig (x retry : WriterM Unit) : WriterM Unit := fun w =>
  match x w with
  | .ok u w => .ok u w
  | .error e w => if e = .entryTooBig then retry w else .error e w

/-- The common part of `writer_add_record` and `write_object_record`: when a record does not fit,
the block is written and the record is tried once more in a new block. -/
def addFlushing (type : BlockType) (record : BlockRecord opts.hashId.size type) : WriterM Unit :=
  onTooBig (currentBlockAdd opts type record) fun w =>
    currentBlockAdd opts type record (writerReinitBlockWriter opts type (writerFlushBlock zlib opts w))

/-- `writer_add_record` -/
def writerAddRecord (type : BlockType) (record : BlockRecord opts.hashId.size type) :
    WriterM Unit := fun w =>
  let key := (recordCodec opts.hashId.size type).key record
  if key ≤ w.lastKey then .error .api w
  else
    let w := { w with lastKey := key }
    let w := if w.blockWriter.isNone then writerReinitBlockWriter opts type w else w
    if w.blockWriter.map BlockWriter.type ≠ some type then .error .api w
    else addFlushing zlib opts type record w

/-! ## Sections -/

/-- Beyond how many blocks a level gets an index. -/
def indexThreshold : Nat := if opts.unpadded then 1 else 3

/-- The loop of `writer_finish_section`, which writes the levels of the index from the lowest to the
highest and returns where that starts. It need not end: a level does not have fewer blocks than
the one below if there is only room for one record in a block. -/
def writeIndexLevels : Nat → Nat → WriterM Nat
  | 0, _ => throw .unnamed
  | fuel + 1, indexStart => do
    let w ← get
    if w.index.length ≤ indexThreshold opts then return indexStart
    else do
      set { writerReinitBlockWriter opts .index w with index := [] }
      w.index.forM (writerAddRecord zlib opts .index)
      modify (writerFlushBlock zlib opts)
      writeIndexLevels fuel w.next

/-- `writer_finish_section`, given the type of the section. -/
def writerFinishSection (fuel : Nat) (type : BlockType) : WriterM Unit := do
  let w ← get
  let beforeBlocks := (w.stats .index).blocks
  modify (writerFlushBlock zlib opts)
  let indexStart ← writeIndexLevels zlib opts fuel 0
  modify fun w =>
    { w with
      index := []
      stats := Function.update w.stats type
        { w.stats type with
          indexBlocks := (w.stats .index).blocks - beforeBlocks
          indexOffset := indexStart }
      -- the next section can start with any key
      lastKey := [] }

/-- `writer_index_hash` on the tree: the current block refers to the object. -/
def indexHash (off : UInt64) (hash : Bytes) : List (Bytes × List UInt64) → List (Bytes × List UInt64)
  | [] => [(hash, [off])]
  | (key, offsets) :: tree =>
    if hash < key then (hash, [off]) :: (key, offsets) :: tree
    else if hash = key then
      (key, if offsets.getLast? = some off then offsets else offsets ++ [off]) :: tree
    else (key, offsets) :: indexHash off hash tree

/-- The longest prefix that two neighbours have in common, from `update_common`. -/
def maxCommonPrefix (max : Nat) : List Bytes → Nat
  | hash :: hash' :: hashes =>
    maxCommonPrefix (Nat.max max (commonPrefixSize hash' hash)) (hash' :: hashes)
  | _ => max

/-- `write_object_record`. The offsets are dropped if they do not fit into a block. -/
def writeObjectRecord (entry : Bytes × List UInt64) : WriterM Unit := fun w =>
  let record : ObjRecord := ⟨entry.1.take w.objectIdLen, entry.2⟩
  onTooBig (addFlushing zlib opts .obj record)
    (currentBlockAdd opts .obj { record with offsets := [] }) w

/-- `writer_dump_object_index` -/
def writerDumpObjectIndex (fuel : Nat) : WriterM Unit := do
  let w ← get
  set (writerReinitBlockWriter opts .obj
    { w with objectIdLen := maxCommonPrefix 1 (w.objIndexTree.map Prod.fst) + 1 })
  w.objIndexTree.forM (writeObjectRecord zlib opts)
  writerFinishSection zlib opts fuel .obj

/-- The object section, which is written behind refs that have an index. -/
def dumpObjectIndexIfIndexed (fuel : Nat) (type : BlockType) : WriterM Unit := do
  let w ← get
  if type = .ref ∧ ¬ opts.skipIndexObjects ∧ 0 < (w.stats .ref).indexBlocks then
    writerDumpObjectIndex zlib opts fuel
  else pure ()

/-- `writer_finish_public_section` -/
def writerFinishPublicSection (fuel : Nat) : WriterM Unit := do
  let w ← get
  match w.blockWriter with
  | none => pure ()
  | some bw => do
    writerFinishSection zlib opts fuel bw.type
    dumpObjectIndexIfIndexed zlib opts fuel bw.type
    modify fun w => { w with objIndexTree := [], blockWriter := none }

/-! ## The interface -/

/-- The writer that `reftable_writer_new` returns. -/
def reftableWriterNew : Writer :=
  writerReinitBlockWriter opts .ref
    { minUpdateIndex := 0, maxUpdateIndex := 0, out := [], pendingPadding := 0, next := 0
      lastKey := [], blockWriter := none, index := [], stats := fun _ => ⟨0, 0, 0, 0⟩
      objectIdLen := 0, objIndexTree := [] }

/-- `reftable_writer_set_limits` -/
def reftableWriterSetLimits (min max : UInt64) : WriterM Unit := fun w =>
  if w.next ≠ 0 ∨ w.lastKey ≠ [] then .error .api w
  else .ok () { w with minUpdateIndex := min, maxUpdateIndex := max }

/-- `reftable_ref_record_val1` and `reftable_ref_record_val2` -/
def RefRecord.hashes {hashSize : Nat} (ref : RefRecord hashSize) : List Bytes :=
  match ref.value with
  | .val1 value => [value.val]
  | .val2 value targetValue => [value.val, targetValue.val]
  | _ => []

/-- The end of `reftable_writer_add_ref`: the current block refers to the objects. -/
def writerIndexHashes (ref : RefRecord opts.hashId.size) (w : Writer) : Writer :=
  if opts.skipIndexObjects then w
  else
    { w with
      objIndexTree := ref.hashes.foldl (fun tree hash => indexHash (UInt64.ofNat w.next) hash tree)
        w.objIndexTree }

/-- `reftable_writer_add_ref` -/
def reftableWriterAddRef (ref : RefRecord opts.hashId.size) : WriterM Unit := do
  let w ← get
  if ref.updateIndex < w.minUpdateIndex ∨ w.maxUpdateIndex < ref.updateIndex then throw .api
  else do
    writerAddRecord zlib opts .ref (ref.relative w.minUpdateIndex)
    modify (writerIndexHashes opts ref)

/-- The refs are complete once the first log is added. -/
def finishRefSection (fuel : Nat) : WriterM Unit := do
  let w ← get
  if w.blockWriter.map BlockWriter.type = some .ref then writerFinishPublicSection zlib opts fuel
  else pure ()

/-- `reftable_writer_add_log_verbatim` -/
def reftableWriterAddLogVerbatim (fuel : Nat) (log : LogRecord opts.hashId.size) :
    WriterM Unit := do
  finishRefSection zlib opts fuel
  modify fun w => { w with next := w.next - w.pendingPadding, pendingPadding := 0 }
  writerAddRecord zlib opts .log log

/-- `reftable_writer_add_log` -/
def reftableWriterAddLog (fuel : Nat) (log : LogRecord opts.hashId.size) : WriterM Unit :=
  match log.value with
  | none => reftableWriterAddLogVerbatim zlib opts fuel log
  | some update => do
    let w ← get
    if w.maxUpdateIndex < log.updateIndex then throw .api
    else
      match opts.exactLogMessage, update.message with
      | false, some message =>
        match cleanMessage message with
        | none => throw .api
        | some message =>
          reftableWriterAddLogVerbatim zlib opts fuel
            { log with value := some { update with message := some message } }
      | _, _ => reftableWriterAddLogVerbatim zlib opts fuel log

/-- The footer without its checksum. -/
def footerData (w : Writer) : Bytes :=
  writerWriteHeader opts w ++ putBe64 (UInt64.ofNat (w.stats .ref).indexOffset) ++
    putBe64 (UInt64.ofNat (w.stats .obj).offset <<< 5 ||| UInt64.ofNat w.objectIdLen) ++
    putBe64 (UInt64.ofNat (w.stats .obj).indexOffset) ++
    putBe64 (UInt64.ofNat (w.stats .log).offset) ++
    putBe64 (UInt64.ofNat (w.stats .log).indexOffset)

/-- The end of `reftable_writer_close`, once the last section is finished. -/
def writeFooter : WriterM Unit := fun w =>
  let emptyTable := w.next = 0
  let w := { w with pendingPadding := 0 }
  -- empty tables need a header anyway
  let w := if emptyTable then paddedWrite (writerWriteHeader opts w) 0 w else w
  let footer := footerData opts w
  let w := paddedWrite (footer ++ putBe32 (zlib.crc32 footer).toNat) 0 w
  if emptyTable then .error .emptyTable w else .ok () w

/-- `reftable_writer_close` -/
def reftableWriterClose (fuel : Nat) : WriterM Unit := do
  writerFinishPublicSection zlib opts fuel
  writeFooter zlib opts

end Operations

end GitCore.Reftable
