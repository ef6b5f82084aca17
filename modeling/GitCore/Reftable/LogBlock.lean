import GitCore.Reftable.RecordRoundTrip

/-! # Log blocks

`block_writer_finish` compresses the records of a log block together with its restart points, and
copies the result over them into the buffer of the block. Whether a record has room is decided by
the uncompressed layout, but compressing may make the data longer. Here it is proved when the copy
stays inside of the buffer, and that the block can then be read back.

The decoder of log records refuses empty names, so that entries are described with a codec that does
not (`uncheckedLogCodec`); the two agree on records with a name. -/

namespace GitCore.Reftable

open List

variable {hashSize : Nat} (r : LogRecord hashSize) {e : Entry (LogRecord hashSize)}

/-- What is assumed of `zlib`: inflating to the known length restores the data and stops behind it.
-/
structure Zlib.Lawful (zlib : Zlib) : Prop where
  inflate_deflate : ∀ data rest, zlib.inflate (zlib.deflate data ++ rest) data.length =
    some (data, (zlib.deflate data).length)

/-- Where the bytes end that `block_writer_finish` stores in the buffer: first come the restart
points, then, for a log block, the compressed data over all that follows the header. -/
def blockWriterFinishEnd (zlib : Zlib) (w : BlockWriter) : Nat :=
  if w.type = .log then max w.size (w.headerOff + 4 + (zlib.deflate w.payload).length) else w.size

/-! ## Records as they are stored -/

theorem LogRecord.valueBytes_stored : r.stored.valueBytes = r.valueBytes := by
  obtain ⟨refname, updateIndex, value⟩ := r
  cases value <;> rfl

theorem LogRecord.valType_stored : r.stored.valType = r.valType := by
  obtain ⟨refname, updateIndex, value⟩ := r
  cases value <;> rfl

theorem LogRecord.stored_stored : r.stored.stored = r.stored := by
  obtain ⟨refname, updateIndex, value⟩ := r
  cases value <;> rfl

theorem LogRecord.encode_stored (room : Nat) (r : LogRecord hashSize) :
    r.stored.encode room = r.encode room := by
  rw [show r.stored.encode room = _ from r.stored.encodes room,
    show r.encode room = _ from r.encodes room, r.valueBytes_stored]

/-- The codec of log records without the check of the key. -/
def uncheckedLogCodec (hashSize : Nat) : RecordCodec (LogRecord hashSize) :=
  { logRecordCodec hashSize with decode := LogRecord.decodeChecked }

theorem uncheckedLogCodec_restores :
    (uncheckedLogCodec hashSize).Restores r.stored where
  valType_lt := by
    change (if r.stored.isDeletion then (0 : UInt8) else 1).toNat < 8
    split <;> decide
  decode_encode := by
    intro room bytes hroom _ hencode rest
    change r.stored.encode room = .ok bytes at hencode
    rw [show r.stored.encode room = _ from r.stored.encodes room] at hencode
    split at hencode
    · rename_i hle
      obtain rfl := Except.ok.inj hencode
      change LogRecord.decodeChecked r.stored.key r.stored.valType _ = _
      rw [LogRecord.decodeChecked_valueBytes (by omega), r.stored_stored]
    · cases hencode

/-- A block takes a record as it takes the stored one. -/
theorem blockWriterAdd_stored (w : BlockWriter) (r : LogRecord hashSize) :
    blockWriterAdd (uncheckedLogCodec hashSize) w r.stored =
      blockWriterAdd (logRecordCodec hashSize) w r := by
  unfold blockWriterAdd uncheckedLogCodec logRecordCodec
  simp only [r.valType_stored, LogRecord.encode_stored]
  rfl

theorem blockWriterAddAll_stored (w : BlockWriter) (records : List (LogRecord hashSize)) :
    blockWriterAddAll (uncheckedLogCodec hashSize) w (records.map LogRecord.stored) =
      Prod.map id (List.map LogRecord.stored)
        (blockWriterAddAll (logRecordCodec hashSize) w records) := by
  induction records generalizing w with
  | nil => rfl
  | cons r records ih =>
    rw [map_cons, blockWriterAddAll, blockWriterAddAll, blockWriterAdd_stored]
    cases blockWriterAdd (logRecordCodec hashSize) w r with
    | error e => exact ih w
    | ok w' =>
      dsimp only
      rw [ih w']
      rfl

/-! ## Reading -/

/-- An entry with a name can be read back with the check as well. -/
theorem entry_wf_log (h : e.WF (uncheckedLogCodec hashSize))
    (hname : e.record.refname.val ≠ []) : e.WF (logRecordCodec hashSize) :=
  { h with
    decode := fun rest =>
      (LogRecord.decode_key _ _).trans ((if_neg hname).trans (h.decode rest)) }

variable {last : Bytes} {block : Block} {off : Nat}

/-- Reading an entry without a name fails. -/
theorem blockIterNext_unnamed
    (h : e.WF (uncheckedLogCodec hashSize)) (hname : e.record.refname.val = [])
    (hlast : e.Follows (uncheckedLogCodec hashSize) last) {rest : Bytes}
    (hview : block.view off = e.bytes (uncheckedLogCodec hashSize) ++ rest) :
    blockIterNext (logRecordCodec hashSize) block ⟨last, off⟩ = .error .unnamed := by
  unfold blockIterNext
  rw [if_neg (Nat.not_le.mpr (Block.lt_restartOff hview))]
  dsimp only
  rw [hview, decodeKey_bytes h hlast]
  dsimp only
  rw [if_neg h.key_ne_nil]
  have hdecode : (logRecordCodec hashSize).decode (e.key (uncheckedLogCodec hashSize))
      ((uncheckedLogCodec hashSize).valType e.record) (e.value ++ rest) = .error .format :=
    LogRecord.decode_unnamed hname _ _
  rw [hdecode]

variable {es : List (Entry (LogRecord hashSize))}

theorem linked_log (h : Linked (uncheckedLogCodec hashSize) last es) :
    Linked (logRecordCodec hashSize) last es := by
  induction es generalizing last with
  | nil => exact trivial
  | cons e es ih => exact ⟨h.1, ih h.2⟩

section

variable (hwf : ∀ e ∈ es, e.WF (uncheckedLogCodec hashSize))
  (hlinked : Linked (uncheckedLogCodec hashSize) last es)
  (hview : block.view off = entriesBytes (uncheckedLogCodec hashSize) es)
  (hdata : block.restartOff ≤ block.data.length)

include hwf hlinked hview hdata

/-- Reading a block of log entries that all have names. -/
theorem produces_named (hnamed : ∀ e ∈ es, e.record.refname.val ≠ []) :
    Produces (blockIterNext (logRecordCodec hashSize) block) ⟨last, off⟩ (es.map Entry.record) :=
  produces_entries (fun e he => entry_wf_log (hwf e he) (hnamed e he)) (linked_log hlinked) hview
    hdata

/-- A block of log entries is read to its end exactly if all of them have names. -/
theorem produces_log_iff (rs : List (LogRecord hashSize)) :
    Produces (blockIterNext (logRecordCodec hashSize) block) ⟨last, off⟩ rs ↔
      rs = es.map Entry.record ∧ ∀ e ∈ es, e.record.refname.val ≠ [] := by
  constructor
  · intro hproduces
    have hnamed : ∀ e ∈ es, e.record.refname.val ≠ [] := by
      induction es generalizing last off rs with
      | nil => exact nofun
      | cons e es ih =>
        have he := hwf e mem_cons_self
        by_cases hname : e.record.refname.val = []
        · -- the first entry is refused
          have hnext := blockIterNext_unnamed he hname hlinked.1 hview
          cases rs with
          | nil => rw [Produces, hnext] at hproduces; cases hproduces
          | cons r rs =>
            obtain ⟨it', hok, -⟩ := hproduces
            rw [hnext] at hok
            cases hok
        · have hnext := blockIterNext_entry (entry_wf_log he hname) hlinked.1 hview
          cases rs with
          | nil => rw [Produces, hnext] at hproduces; cases hproduces
          | cons r rs =>
            obtain ⟨it', hok, hrest⟩ := hproduces
            rw [hnext] at hok
            obtain ⟨-, rfl⟩ := Prod.mk.inj (Option.some.inj (Except.ok.inj hok))
            have htail := ih (fun e' he' => hwf e' (mem_cons_of_mem _ he')) hlinked.2
              (Block.view_of_append hview) rs hrest
            exact forall_mem_cons.mpr ⟨hname, htail⟩
    exact ⟨hproduces.unique (produces_named hwf hlinked hview hdata hnamed), hnamed⟩
  · rintro ⟨rfl, hnamed⟩
    exact produces_named hwf hlinked hview hdata hnamed

end

/-- `reftable_block_init` on a finished log block whose compressed data has room in it. -/
theorem BlockWriter.Holds.blockInit_log {α : Type} {codec : RecordCodec α} {w : BlockWriter}
    {es : List (Entry α)} {zlib : Zlib} (hzlib : zlib.Lawful) (h : w.Holds codec es)
    (htype : w.type = .log) (hsize : w.size ≤ w.blockSize) (hblockSize : w.blockSize < 2 ^ 24)
    (hfits : w.headerOff + 4 + (zlib.deflate w.payload).length ≤ w.blockSize) {header : Bytes}
    (hheader : header.length = w.headerOff) {source tail : Bytes} {offset : Nat}
    (hoffset : offset < 2 ^ 32)
    (hsource : source.drop offset = blockWriterFinish zlib header w ++ tail) :
    ∃ block, Reftable.blockInit zlib source offset w.headerOff w.blockSize (some .log) =
        .ok (some block) ∧
      block.Holds codec es ∧ block.headerOff = w.headerOff := by
  have hsizeEq : w.size = w.headerOff + 4 + w.payload.length := rfl
  generalize hstart : header ++ (w.type.byte :: putBe24 w.size) = start at *
  have hstartLen : start.length = w.headerOff + 4 := by
    rw [← hstart, length_append, hheader]
    rfl
  have hfinish : blockWriterFinish zlib header w = start ++ zlib.deflate w.payload := by
    rw [blockWriterFinish, if_pos htype, ← hstart]
    rfl
  rw [hfinish, append_assoc] at hsource
  -- the whole block is read, since it is not larger than the block size of the table
  have hread : ∃ rest, readBlock source offset w.blockSize =
      start ++ (zlib.deflate w.payload ++ rest) := by
    refine ⟨tail.take (w.blockSize - (start ++ zlib.deflate w.payload).length), ?_⟩
    rw [readBlock, hsource, ← append_assoc, take_append, take_of_length_le, append_assoc]
    rw [length_append, hstartLen]
    exact hfits
  obtain ⟨rest, hread⟩ := hread
  obtain ⟨hbyte, hlen⟩ := w.read_header hheader (by omega) (zlib.deflate w.payload ++ tail)
    (show w.headerOff + 4 ≤ w.blockSize by omega)
  rw [hstart, ← hsource] at hbyte hlen
  obtain ⟨block, hsetup, hholds, hoff, -⟩ :=
    h.block (by omega) hheader [] ((zlib.deflate w.payload).length + (4 + w.headerOff))
  refine ⟨block, ?_, hholds, hoff⟩
  have hinflate := hzlib.inflate_deflate w.payload rest
  unfold Reftable.blockInit
  dsimp only
  rw [Nat.mod_eq_of_lt hoffset, if_pos (show w.blockSize ≠ 0 by omega), readBlock, hbyte]
  dsimp only
  rw [BlockType.ofByte_byte]
  dsimp only
  rw [if_neg (by simp [htype]), hlen]
  dsimp only
  rw [if_neg (Nat.not_lt.mpr hsize), ← readBlock, hread, blockUncompress, if_pos htype]
  dsimp only
  rw [show 4 + w.headerOff = start.length by omega, drop_left,
    show w.size - start.length = w.payload.length by omega, hinflate]
  dsimp only
  rw [if_neg (not_not.mpr (by omega)), take_left, hstartLen, Nat.add_comm w.headerOff 4]
  rw [BlockWriter.image, hstart, append_nil] at hsetup
  exact hsetup

/-! ## The round trip -/

/-- **Log blocks.** Take a log block of a size that its length field can hold and log records that
are offered to it. All that `block_writer_finish` writes lies inside of the buffer of `blockSize`
bytes and reading the block hands out records equal to those that were accepted, exactly if the
block fits compressed as well as uncompressed and all the records have names. -/
theorem log_block_roundtrip_iff {zlib : Zlib} (hzlib : zlib.Lawful)
    {blockSize headerOff restartInterval : Nat} (hblockSize : blockSize < 2 ^ 24)
    {w w' : BlockWriter} (hinit : blockWriterInit .log blockSize headerOff restartInterval = some w)
    {records accepted : List (LogRecord hashSize)}
    (hadd : blockWriterAddAll (logRecordCodec hashSize) w records = (w', accepted))
    {header : Bytes} (hheader : header.length = headerOff) {source tail : Bytes} {offset : Nat}
    (hoffset : offset < 2 ^ 32)
    (hsource : source.drop offset = blockWriterFinish zlib header w' ++ tail) :
    (blockWriterFinishEnd zlib w' ≤ blockSize ∧
      ∃ block rs, blockInit zlib source offset headerOff blockSize (some .log) =
          .ok (some block) ∧
        Produces (blockIterNext (logRecordCodec hashSize) block) (blockIterSeekStart block) rs ∧
        List.Forall₂ (fun r s => LogRecord.equal r s = true) rs accepted) ↔
      headerOff + 4 + w'.payload.length ≤ blockSize ∧
        headerOff + 4 + (zlib.deflate w'.payload).length ≤ blockSize ∧
        ∀ r ∈ accepted, r.refname.val ≠ [] := by
  have hstored := blockWriterAddAll_stored w records
  rw [hadd] at hstored
  change _ = (w', accepted.map LogRecord.stored) at hstored
  obtain ⟨hempty, htype, rfl, rfl⟩ := BlockWriter.Holds.of_init hinit
  obtain ⟨⟨es, hrecords, hes⟩, -, htype', hbs, hho⟩ := hempty.addAll hblockSize
    (fun r hr => by
      obtain ⟨r, -, rfl⟩ := mem_map.mp hr
      exact uncheckedLogCodec_restores r) hstored
  have hlog : w'.type = .log := htype'.trans htype
  have hsizeEq : w'.size = w.headerOff + 4 + w'.payload.length := by rw [← hho]; rfl
  rw [blockWriterFinishEnd, if_pos hlog, max_le_iff, hsizeEq, hho, and_assoc]
  refine and_congr_right fun hsize => and_congr_right fun hfits => ?_
  -- the block is read, and its entries are the accepted records as they are stored
  obtain ⟨block, hblock, hholds, hoff⟩ := hes.blockInit_log hzlib hlog (by omega) (by omega)
    (by omega) (hheader.trans hho.symm) hoffset hsource
  rw [hho, hbs] at hblock
  have hproduces (rs : List (LogRecord hashSize)) :=
    produces_log_iff hholds.wf hholds.linked hholds.view hholds.restartOff_le rs
  have hnames : (∀ e ∈ es, e.record.refname.val ≠ []) ↔ ∀ r ∈ accepted, r.refname.val ≠ [] := by
    have hmem : (∀ r ∈ es.map Entry.record, r.refname.val ≠ []) ↔
        ∀ r ∈ accepted.map LogRecord.stored, r.refname.val ≠ [] := by rw [hrecords]
    rw [forall_mem_map, forall_mem_map] at hmem
    exact hmem
  constructor
  · rintro ⟨block', rs, hblock', hrs, -⟩
    rw [hblock] at hblock'
    obtain rfl := Option.some.inj (Except.ok.inj hblock')
    exact hnames.mp ((hproduces rs).mp hrs).2
  · intro hnamed
    refine ⟨block, accepted.map LogRecord.stored, hblock,
      (hproduces _).mpr ⟨hrecords.symm, hnames.mpr hnamed⟩, ?_⟩
    rw [forall₂_map_left_iff, forall₂_same]
    exact fun r _ => Record.equal_stored (.log r)

/-- Data behind a byte that marks it, as a compression that makes everything longer. -/
def markingZlib : Zlib where
  deflate := fun data => 0x78 :: data
  inflate := fun input n =>
    if input.length < n + 1 then none else some ((input.drop 1).take n, n + 1)
  crc32 := fun _ => 0

theorem markingZlib_lawful : markingZlib.Lawful where
  inflate_deflate := by
    intro data rest
    change (if (0x78 :: data ++ rest).length < data.length + 1 then none else
      some (((0x78 :: data ++ rest).drop 1).take data.length, data.length + 1)) = _
    rw [if_neg (by simp), cons_append, drop_succ_cons, drop_zero, take_left]
    rfl

/-- Three log records of a ref, the newest first. -/
def logDeletions : List (LogRecord 20) := [logDeletion 9, logDeletion 7, logDeletion 2]

/-- Three log records in a block of 96 bytes, with a restart point for every second one. -/
theorem log_block_roundtrip_deletions :
    ∃ w w' block, ∃ rs : List (LogRecord 20), blockWriterInit .log 96 0 2 = some w ∧
      blockWriterAddAll (logRecordCodec 20) w logDeletions = (w', logDeletions) ∧
      blockInit markingZlib (blockWriterFinish markingZlib [] w') 0 0 96 (some .log) =
        .ok (some block) ∧
      Produces (blockIterNext (logRecordCodec 20) block) (blockIterSeekStart block) rs ∧
      List.Forall₂ (fun r s => LogRecord.equal r s = true) rs logDeletions := by
  obtain ⟨w, hw⟩ : ∃ w, blockWriterInit .log 96 0 2 = some w := ⟨_, rfl⟩
  obtain ⟨w', hw', hlength⟩ : ∃ w', blockWriterAddAll (logRecordCodec 20) w logDeletions =
      (w', logDeletions) ∧ w'.payload.length ≤ 60 := by
    obtain rfl := Option.some.inj hw
    exact ⟨_, rfl, by decide⟩
  have hdeflate : (markingZlib.deflate w'.payload).length = w'.payload.length + 1 := rfl
  obtain ⟨-, block, rs, hblock, hproduces, hequal⟩ := (log_block_roundtrip_iff markingZlib_lawful
    (show 96 < 2 ^ 24 by decide) hw hw' rfl (show 0 < 2 ^ 32 by decide)
    (append_nil (blockWriterFinish markingZlib [] w')).symm).mpr
    ⟨by omega, by omega, by simp [logDeletions, logDeletion]⟩
  exact ⟨w, w', block, rs, hw, hw', hblock, hproduces, hequal⟩

/-- **A full log block that does not shrink overflows its buffer.** A record that fills a block of
21 bytes is accepted; compressed it takes one byte more, which is written behind the buffer. The
reader, who reads 21 bytes of the block, reports `REFTABLE_ZLIB_ERROR`. -/
theorem log_block_overflow :
    ∃ w w', blockWriterInit .log 21 0 16 = some w ∧
      blockWriterAddAll (logRecordCodec 20) w [logDeletion 7] = (w', [logDeletion 7]) ∧
      blockWriterFinishEnd markingZlib w' = 22 ∧
      blockInit markingZlib (blockWriterFinish markingZlib [] w') 0 0 21 (some .log) =
        .error .zlib := by
  obtain ⟨w, hw⟩ : ∃ w, blockWriterInit .log 21 0 16 = some w := ⟨_, rfl⟩
  refine ⟨w, (blockWriterAddAll (logRecordCodec 20) w [logDeletion 7]).1, hw, ?_⟩
  obtain rfl := Option.some.inj hw
  exact ⟨rfl, rfl, rfl⟩

end GitCore.Reftable
