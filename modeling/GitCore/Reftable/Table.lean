import GitCore.Reftable.Writer

/-! # Reading tables

A reader takes the position of the sections from the footer of a table. It finds a key in a section
by a search through the blocks from the first one on, or by descending the index from its highest
level. `hashSize` is the size of the table's hashes, `hash_size(t->hash_id)`. -/

namespace GitCore.Reftable

/-- `struct reftable_table_offsets` -/
structure TableOffsets where
  /-- Whether the table has the section. -/
  isPresent : Bool
  /-- Where the section starts. -/
  offset : Nat
  /-- Where the highest level of its index starts, zero if there is none. -/
  indexOffset : Nat
deriving DecidableEq

/-- `struct reftable_table` -/
structure Table where
  /-- The bytes of the table, including the footer. -/
  source : Bytes
  /-- The size without the footer. -/
  size : Nat
  /-- The version of the format. -/
  version : Nat
  /-- The hash function. -/
  hashId : HashId
  /-- The block size. -/
  blockSize : Nat
  /-- `min_update_index` -/
  minUpdateIndex : UInt64
  /-- `max_update_index` -/
  maxUpdateIndex : UInt64
  /-- The length of an object id in the object section. -/
  objectIdLen : Nat
  /-- The section with the refs. -/
  refOffsets : TableOffsets
  /-- The section with the objects. -/
  objOffsets : TableOffsets
  /-- The section with the logs. -/
  logOffsets : TableOffsets
deriving DecidableEq

/-! ## Opening a table -/

/-- `"REFT"` -/
def magic : Bytes := [0x52, 0x45, 0x46, 0x54]

/-- The hash function of a table and the rest of the footer, which starts with its format id from
version 2 on. -/
def parseHashId (version : Nat) (input : Bytes) : Except ReftableError (HashId × Bytes) :=
  if version = 1 then .ok (.sha1, input)
  else
    match getBe32 input with
    | some id =>
      if id = HashId.formatId .sha1 then .ok (.sha1, input.drop 4)
      else if id = HashId.formatId .sha256 then .ok (.sha256, input.drop 4)
      else .error .format
    | none => .error .format

/-- The next eight bytes of the footer, which are there. -/
def footerField (input : Bytes) : Except ReftableError (UInt64 × Bytes) :=
  match getBe64 input with
  | some v => .ok (v, input.drop 8)
  | none => .error .format

/-- The fields of a footer behind the block size. -/
structure FooterFields where
  /-- `min_update_index` -/
  minUpdateIndex : UInt64
  /-- `max_update_index` -/
  maxUpdateIndex : UInt64
  /-- The hash function. -/
  hashId : HashId
  /-- Where the index of the refs starts. -/
  refIndexOffset : UInt64
  /-- Where the objects start, with the length of their ids in the lowest five bits. -/
  objOffset : UInt64
  /-- Where the index of the objects starts. -/
  objIndexOffset : UInt64
  /-- Where the logs start. -/
  logOffset : UInt64
  /-- Where the index of the logs starts. -/
  logIndexOffset : UInt64

/-- The part of `parse_footer` that reads these fields, and the bytes behind. -/
def parseFields (version : Nat) (input : Bytes) : Except ReftableError (FooterFields × Bytes) := do
  let (minUpdateIndex, input) ← footerField input
  let (maxUpdateIndex, input) ← footerField input
  let (hashId, input) ← parseHashId version input
  let (refIndexOffset, input) ← footerField input
  let (objOffset, input) ← footerField input
  let (objIndexOffset, input) ← footerField input
  let (logOffset, input) ← footerField input
  let (logIndexOffset, input) ← footerField input
  return (⟨minUpdateIndex, maxUpdateIndex, hashId, refIndexOffset, objOffset, objIndexOffset,
    logOffset, logIndexOffset⟩, input)

/-- The end of `parse_footer`, given the type of the first block. -/
def FooterFields.table (f : FooterFields) (source : Bytes) (size version blockSize : Nat)
    (firstBlockTyp : Option UInt8) : Except ReftableError Table :=
  let objectIdLen := (f.objOffset &&& 0x1f).toNat
  let objOffset := (f.objOffset >>> 5).toNat
  if 0 < objOffset ∧ objectIdLen = 0 then .error .format
  else .ok
    { source := source, size := size, version := version, hashId := f.hashId
      blockSize := blockSize, minUpdateIndex := f.minUpdateIndex
      maxUpdateIndex := f.maxUpdateIndex, objectIdLen := objectIdLen
      refOffsets := ⟨firstBlockTyp = some BlockType.ref.byte, 0, f.refIndexOffset.toNat⟩
      objOffsets := ⟨0 < objOffset, objOffset, f.objIndexOffset.toNat⟩
      logOffsets := ⟨firstBlockTyp = some BlockType.log.byte ∨ 0 < f.logOffset.toNat,
        f.logOffset.toNat, f.logIndexOffset.toNat⟩ }

/-- `parse_footer` -/
def parseFooter (zlib : Zlib) (source : Bytes) (size version : Nat) (footer header : Bytes) :
    Except ReftableError Table :=
  if footer.take 4 ≠ magic then .error .format
  else if footer.take (headerSize version) ≠ header.take (headerSize version) then .error .format
  else
    let blockSize := (getBe24 (footer.drop 5)).getD 0
    match parseFields version (footer.drop 8) with
    | .error e => .error e
    | .ok (f, input) =>
      if getBe32 input ≠ some (zlib.crc32 (footer.take (footer.length - input.length))).toNat then
        .error .format
      else f.table source size version blockSize header[headerSize version]?

/-- `reftable_table_new`. A file that is too short for its footer is an I/O error here. -/
def reftableTableNew (zlib : Zlib) (source : Bytes) : Except ReftableError Table :=
  let readSize := headerSize 2 + 1
  if source.length < readSize then .error .format
  else
    let header := source.take readSize
    if header.take 4 ≠ magic then .error .format
    else
      let version := ((header[4]?).map UInt8.toNat).getD 0
      if version ≠ 1 ∧ version ≠ 2 then .error .format
      else if source.length < footerSize version then .error .io
      else
        let size := source.length - footerSize version
        parseFooter zlib source size version (source.drop size) header

/-! ## Iterators -/

/-- `table_offsets_for` -/
def Table.offsetsFor (t : Table) : BlockType → TableOffsets
  | .ref => t.refOffsets
  | .log => t.logOffsets
  | .obj => t.objOffsets
  | .index => ⟨false, 0, 0⟩

/-- `struct table_iter`, with the table that it reads. -/
structure TableIter where
  /-- The type of the records. -/
  typ : BlockType
  /-- Where the current block starts. -/
  blockOff : Nat
  /-- The current block. -/
  block : Block
  /-- The position in the block. -/
  bi : BlockIter
  /-- Whether the end was reached. -/
  isFinished : Bool
deriving DecidableEq

section Iterators

variable (zlib : Zlib) (t : Table)

/-- `table_init_block`; `none` stands for a positive return value. -/
def tableInitBlock (nextOff : Nat) (wantTyp : Option BlockType) :
    Except ReftableError (Option Block) :=
  let headerOff := if nextOff ≠ 0 then 0 else headerSize t.version
  if t.size ≤ nextOff then .ok none
  else blockInit zlib t.source nextOff headerOff t.blockSize wantTyp

/-- `table_iter_next_block`; `none` stands for a positive return value. -/
def tableIterNextBlock (ti : TableIter) : Except ReftableError (Option TableIter) :=
  let nextBlockOff := ti.blockOff + ti.block.fullBlockSize
  match tableInitBlock zlib t nextBlockOff (some ti.typ) with
  | .error e => .error e
  | .ok none => .ok none
  | .ok (some block) =>
    .ok (some ⟨ti.typ, nextBlockOff, block, blockIterSeekStart block, false⟩)

/-- The part of `table_iter_next_in_block` that restores the update index of a ref. -/
def Table.restore {hashSize : Nat} (t : Table) :
    (type : BlockType) → BlockRecord hashSize type → BlockRecord hashSize type
  | .ref, ref => RefRecord.rebased t.minUpdateIndex ref
  | .log, log => log
  | .obj, obj => obj
  | .index, index => index

/-- The loop of `table_iter_next`; `none` stands for a positive return value. -/
def tableIterNextLoop (hashSize : Nat) (type : BlockType) :
    Nat → TableIter → Except ReftableError (Option (BlockRecord hashSize type) × TableIter)
  | 0, _ => .error .unnamed
  | fuel + 1, ti =>
    if ti.isFinished then .ok (none, ti)
    else
      match blockIterNext (recordCodec hashSize type) ti.block ti.bi with
      | .error e => .error e
      | .ok (some (record, bi)) => .ok (some (t.restore type record), { ti with bi := bi })
      | .ok none =>
        match tableIterNextBlock zlib t ti with
        | .error e => .error e
        | .ok none => .ok (none, { ti with isFinished := true })
        | .ok (some ti) => tableIterNextLoop hashSize type fuel ti

/-- `table_iter_next`. A block behind the current one starts at a larger offset, which bounds the
number of rounds. -/
def tableIterNext (hashSize : Nat) (type : BlockType) (ti : TableIter) :
    Except ReftableError (Option (BlockRecord hashSize type) × TableIter) :=
  if type ≠ ti.typ then .error .api
  else tableIterNextLoop zlib t hashSize type (t.size + 1) ti

/-- `table_iter_seek_to`; `none` stands for a positive return value. -/
def tableIterSeekTo (off : Nat) (typ : Option BlockType) :
    Except ReftableError (Option TableIter) :=
  match tableInitBlock zlib t off typ with
  | .error e => .error e
  | .ok none => .ok none
  | .ok (some block) => .ok (some ⟨block.type, off, block, blockIterSeekStart block, false⟩)

/-- `table_iter_seek_start`; `none` stands for a positive return value. -/
def tableIterSeekStart (typ : BlockType) (index : Bool) :
    Except ReftableError (Option TableIter) :=
  let offs := t.offsetsFor typ
  if index then
    if offs.indexOffset = 0 then .ok none else tableIterSeekTo zlib t offs.indexOffset (some .index)
  else tableIterSeekTo zlib t offs.offset (some typ)

/-- `reftable_block_first_key` -/
def reftableBlockFirstKey (block : Block) : Except ReftableError Bytes :=
  match decodeKey [] (block.view (block.headerOff + 4)) with
  | none => .error .unnamed
  | some (key, _, _) => if key = [] then .error .format else .ok key

/-- The loop of `table_iter_seek_linear`: the last block whose first key is not above the wanted
one, or the block to start with. -/
def seekLinearLoop (wantKey : Bytes) : Nat → TableIter → Except ReftableError TableIter
  | 0, _ => .error .unnamed
  | fuel + 1, ti =>
    match tableIterNextBlock zlib t ti with
    | .error e => .error e
    | .ok none => .ok ti
    | .ok (some next) =>
      match reftableBlockFirstKey next.block with
      | .error e => .error e
      | .ok gotKey => if wantKey < gotKey then .ok ti else seekLinearLoop wantKey fuel next

/-- `table_iter_seek_linear` for records of the given type. -/
def tableIterSeekLinear (hashSize : Nat) (type : BlockType) (wantKey : Bytes) (ti : TableIter) :
    Except ReftableError TableIter :=
  match seekLinearLoop zlib t wantKey (t.size + 1) ti with
  | .error e => .error e
  | .ok ti =>
    match blockIterSeekKey (recordCodec hashSize type) ti.block (blockIterSeekStart ti.block)
        wantKey with
    | .error e => .error e
    | .ok bi => .ok { ti with bi := bi }

/-- The loop of `table_iter_seek_indexed`, from the highest level of the index down to a block of
the type `type`; `none` stands for a positive return value. -/
def seekIndexedLoop (hashSize : Nat) (type : BlockType) (wantKey : Bytes) :
    Nat → TableIter → Except ReftableError (Option TableIter)
  | 0, _ => .error .unnamed
  | fuel + 1, ti =>
    match tableIterNext zlib t hashSize .index ti with
    | .error e => .error e
    | .ok (none, _) => .ok none
    | .ok (some indexResult, _) =>
      match tableIterSeekTo zlib t (IndexRecord.offset indexResult).toNat none with
      | .error e => .error e
      | .ok none => .ok none
      | .ok (some ti) =>
        match blockIterSeekKey (recordCodec hashSize ti.typ) ti.block (blockIterSeekStart ti.block)
            wantKey with
        | .error e => .error e
        | .ok bi =>
          let ti := { ti with bi := bi }
          if ti.typ = type then .ok (some ti)
          else if ti.typ ≠ .index then .error .format
          else seekIndexedLoop hashSize type wantKey fuel ti

/-- `table_iter_seek_indexed`; `none` stands for a positive return value. Every level of the index
has a block of its own, which bounds the number of rounds. -/
def tableIterSeekIndexed (hashSize : Nat) (type : BlockType) (wantKey : Bytes) (ti : TableIter) :
    Except ReftableError (Option TableIter) :=
  match tableIterSeekLinear zlib t hashSize .index wantKey ti with
  | .error e => .error e
  | .ok ti => seekIndexedLoop zlib t hashSize type wantKey (t.size + 1) ti

/-- `table_iter_seek`; `none` stands for a positive return value. A positive value of
`table_iter_seek_start`, after which the source goes on with an iterator that is not set, is an error
here. -/
def tableIterSeek (hashSize : Nat) (type : BlockType) (wantKey : Bytes) :
    Except ReftableError (Option TableIter) :=
  let offs := t.offsetsFor type
  match tableIterSeekStart zlib t type (offs.indexOffset ≠ 0) with
  | .error e => .error e
  | .ok none => .error .unnamed
  | .ok (some ti) =>
    if offs.indexOffset ≠ 0 then tableIterSeekIndexed zlib t hashSize type wantKey ti
    else
      match tableIterSeekLinear zlib t hashSize type wantKey ti with
      | .error e => .error e
      | .ok ti => .ok (some ti)

end Iterators

end GitCore.Reftable
