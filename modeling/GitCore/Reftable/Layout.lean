import GitCore.Reftable.TableRead

/-! # Where the writer puts the blocks

A block that has been written is described by a `Chunk`. Padding is not written before the next
block, so that the last block of a table has none: `Placed` says where the bytes of a block are, and
that what follows its padding, if anything, does not start with a zero. A section under way is a chain
of chunks and the records of the block that is being filled (`Writing`). -/

namespace GitCore.Reftable

open List
open Function (update update_of_ne update_self)
open Overlay

variable {α : Type} {zlib : Zlib} {opts : WriterOptions} {hdr : Bytes} {w w' : Writer}
  {type : BlockType} {stats : BlockType → BlockStats} {base : Nat}

/-! ## Operations of the writer -/

section WriterM

variable {ε σ α β : Type} {x : EStateM ε σ α} {f : α → EStateM ε σ β} {s s' : σ} {b : β}

/-- The states that a sequence of two operations goes through. -/
theorem EStateM_bind_eq_ok (h : (x >>= f) s = .ok b s') :
    ∃ a s₁, x s = .ok a s₁ ∧ f a s₁ = .ok b s' := by
  change EStateM.bind x f s = _ at h
  unfold EStateM.bind at h
  grind

end WriterM

section OnTooBig

variable {x retry : WriterM Unit}

theorem onTooBig_eq_ok (h : onTooBig x retry w = .ok () w') :
    x w = .ok () w' ∨ ∃ w₁, x w = .error .entryTooBig w₁ ∧ retry w₁ = .ok () w' := by
  unfold onTooBig at h
  cases hx : x w with
  | ok u w₁ => rw [hx] at h; exact .inl h
  | error e w₁ =>
    grind

end OnTooBig

/-! ## Bytes -/

/-- There is a first byte, and it is not zero. -/
def StartsNonzero (bytes : Bytes) : Prop := ∃ b rest, bytes = b :: rest ∧ b ≠ 0

/-- The bytes of a block lie at an offset of what was written, where `pending` zeros of padding are
yet to come. -/
inductive Placed (out : Bytes) (pending off : Nat) (image : Bytes) (padding : Nat) : Prop
  /-- Nothing follows yet, and the padding is pending. -/
  | last (start : Bytes) (hout : out = start ++ image) (hoff : start.length = off)
    (hpending : pending = padding)
  /-- The padding was written, and something behind it. -/
  | inner (start rest : Bytes) (hout : out = start ++ (image ++ (List.replicate padding 0 ++ rest)))
    (hoff : start.length = off) (hrest : StartsNonzero rest)

section Placed

variable {out image data : Bytes} {pending off padding : Nat}

theorem StartsNonzero.append {bytes : Bytes} (h : StartsNonzero bytes) (bytes' : Bytes) :
    StartsNonzero (bytes ++ bytes') := by
  obtain ⟨b, rest, rfl, hb⟩ := h
  exact ⟨b, rest ++ bytes', rfl, hb⟩

/-- A block stays where it is when more is written. -/
theorem Placed.write (h : Placed out pending off image padding) (hdata : StartsNonzero data)
    (pending' : Nat) :
    Placed (out ++ List.replicate pending 0 ++ data) pending' off image padding := by
  cases h with
  | last start hout hoff hpending =>
    refine .inner start data ?_ hoff hdata
    rw [hout, hpending]
    simp only [append_assoc]
  | inner start rest hout hoff hrest =>
    refine .inner start (rest ++ (List.replicate pending 0 ++ data)) ?_ hoff (hrest.append _)
    rw [hout]
    simp only [append_assoc]

end Placed

/-! ## Chunks -/

/-- A block that has been written. -/
structure Chunk (α : Type) where
  /-- Where it starts. -/
  off : Nat
  /-- The block. -/
  bw : BlockWriter
  /-- The header of the table, in its first block. -/
  header : Bytes
  /-- The padding behind it. -/
  padding : Nat
  /-- The records. -/
  records : List α

section Chunks

variable (opts hdr)

/-- The bytes of the block. -/
def Chunk.image (c : Chunk α) : Bytes := c.bw.image c.header

/-- The offset behind the block and its padding. -/
def Chunk.stop (c : Chunk α) : Nat := c.off + c.bw.size + c.padding

/-- The block as a reader sees it. -/
def Chunk.block (c : Chunk α) : Nat × List α := (c.off, c.records)

/-- The block is what a writer with these options makes of its records; `hdr` is the header of the
table. -/
structure Chunk.Valid (codec : RecordCodec α) (type : BlockType) (c : Chunk α) : Prop where
  type_eq : c.bw.type = type
  blockSize_eq : c.bw.blockSize = opts.blockSize
  header_eq : c.header = if c.off = 0 then hdr else []
  headerOff_eq : c.bw.headerOff = c.header.length
  padding_eq : c.padding = if opts.unpadded then 0 else opts.blockSize - c.bw.size
  holds : ∃ es, es.map Entry.record = c.records ∧ c.bw.Holds codec es
  ne_nil : c.records ≠ []

/-- The chunk is where it should be. -/
def Chunk.In (w : Writer) (c : Chunk α) : Prop :=
  Placed w.out w.pendingPadding c.off c.image c.padding

/-- The chunks lie one behind the other. -/
def Chain : Nat → List (Chunk α) → Nat → Prop
  | base, [], stop => base = stop
  | base, c :: cs, stop => c.off = base ∧ Chain c.stop cs stop

variable {c : Chunk α}

theorem Chain.concat {stop : Nat} {cs : List (Chunk α)} (h : Chain base cs stop)
    (hc : c.off = stop) : Chain base (cs ++ [c]) c.stop := by
  induction cs generalizing base with
  | nil => exact ⟨hc.trans h.symm, rfl⟩
  | cons c' cs ih => exact ⟨h.1, ih h.2⟩

/-- The records of some chunks. -/
def chunkRecords (cs : List (Chunk α)) : List α := cs.flatMap Chunk.records

theorem chunkRecords_eq (cs : List (Chunk α)) :
    chunkRecords cs = blockRecords (cs.map Chunk.block) := by
  rw [chunkRecords, blockRecords, flatMap_map]
  rfl

variable {opts hdr} {codec : RecordCodec α}

/-- A chunk fits into a block. -/
theorem Chunk.Valid.size_le (h : c.Valid opts hdr codec type) : c.bw.size ≤ opts.blockSize := by
  obtain ⟨es, hes, hholds⟩ := h.holds
  rw [← h.blockSize_eq, c.bw.size_eq]
  refine hholds.room ?_
  rintro rfl
  exact h.ne_nil hes.symm

theorem Chunk.Valid.length_image (h : c.Valid opts hdr codec type) : c.image.length = c.bw.size :=
  c.bw.length_image h.headerOff_eq.symm

end Chunks

/-! ## Sections under way -/

section Sections

variable {next : Nat}

/-- All blocks stay where they are. -/
def StaysPlaced (w w' : Writer) : Prop :=
  ∀ off image padding, Placed w.out w.pendingPadding off image padding →
    Placed w'.out w'.pendingPadding off image padding

/-- What all operations behind the start of a section leave as it is. -/
structure Keeps (w w' : Writer) : Prop where
  minUpdateIndex : w'.minUpdateIndex = w.minUpdateIndex
  maxUpdateIndex : w'.maxUpdateIndex = w.maxUpdateIndex
  objIndexTree : w'.objIndexTree = w.objIndexTree
  placed : StaysPlaced w w'

theorem Keeps.trans {w'' : Writer} (h : Keeps w w') (h' : Keeps w' w'') : Keeps w w'' where
  minUpdateIndex := h'.minUpdateIndex.trans h.minUpdateIndex
  maxUpdateIndex := h'.maxUpdateIndex.trans h.maxUpdateIndex
  objIndexTree := h'.objIndexTree.trans h.objIndexTree
  placed := fun _ _ _ hp => h'.placed _ _ _ (h.placed _ _ _ hp)

/-- What an operation on a section of the type leaves as it is. -/
structure Evolves (type : BlockType) (w w' : Writer) : Prop extends Keeps w w' where
  objectIdLen : w'.objectIdLen = w.objectIdLen
  stats : ∀ ty ≠ type, w'.stats ty = w.stats ty

theorem Evolves.refl (type : BlockType) (w : Writer) : Evolves type w w :=
  ⟨⟨rfl, rfl, rfl, fun _ _ _ h => h⟩, rfl, fun _ _ => rfl⟩

theorem Evolves.trans {w'' : Writer} (h : Evolves type w w')
    (h' : Evolves type w' w'') : Evolves type w w'' where
  toKeeps := h.toKeeps.trans h'.toKeeps
  objectIdLen := h'.objectIdLen.trans h.objectIdLen
  stats := fun ty hty => (h'.stats ty hty).trans (h.stats ty hty)

/-- The statistics after `n` blocks of a type were written from `base` on. -/
def sectionStats (stats : BlockType → BlockStats) (type : BlockType) (base n : Nat) :
    BlockType → BlockStats :=
  update stats type
    { stats type with
      blocks := (stats type).blocks + n
      offset := if (stats type).blocks = 0 ∧ 0 < n ∧ 0 < base then base else (stats type).offset }

/-- One more block, at `next`. -/
theorem sectionStats_succ (stats : BlockType → BlockStats) (type : BlockType) {n : Nat}
    (hnext : n = 0 → next = base) :
    update (sectionStats stats type base n) type
      (let s := sectionStats stats type base n type
       let blockTypOff := if s.blocks = 0 then next else 0
       { s with
         offset := if 0 < blockTypOff then blockTypOff else s.offset
         blocks := s.blocks + 1 }) = sectionStats stats type base (n + 1) := by
  unfold sectionStats
  grind

/-- A section from `base` on, as far as it has been written; `stats` are the statistics at its
start. -/
structure Written (opts : WriterOptions) (hdr : Bytes) (stats : BlockType → BlockStats)
    (type : BlockType) (base : Nat) (cs : List (Chunk (opts.Record type)))
    (w : Writer) : Prop where
  next_eq : w.next = w.out.length + w.pendingPadding
  header_eq : writerWriteHeader opts w = hdr
  chain : Chain base cs w.next
  valid : ∀ c ∈ cs, c.Valid opts hdr (opts.codec type) type
  placed : ∀ c ∈ cs, c.In w
  index_eq : w.index = cs.map fun c => indexRecord (opts.codec type).key c.block
  stats_eq : w.stats = sectionStats stats type base cs.length

/-- A section with a block under way that holds the records `rs`. -/
structure Writing (opts : WriterOptions) (hdr : Bytes) (stats : BlockType → BlockStats)
    (type : BlockType) (base : Nat) (cs : List (Chunk (opts.Record type)))
    (rs : List (opts.Record type)) (w : Writer) : Prop
    extends Written opts hdr stats type base cs w where
  current : ∃ bw es, w.blockWriter = some bw ∧ bw.type = type ∧ bw.blockSize = opts.blockSize ∧
    bw.headerOff = (if w.next = 0 then hdr.length else 0) ∧ es.map Entry.record = rs ∧
    bw.Holds (opts.codec type) es

theorem length_writerWriteHeader (w : Writer) :
    (writerWriteHeader opts w).length = headerSize opts.hashId.version := by
  rcases hid : opts.hashId with _ | _ <;> simp [writerWriteHeader, hid, HashId.version, headerSize]

theorem writerWriteHeader_startsNonzero (w : Writer) : StartsNonzero (writerWriteHeader opts w) :=
  ⟨0x52, _, rfl, by decide⟩

theorem BlockType.byte_ne_zero (type : BlockType) : type.byte ≠ 0 := by
  cases type <;> decide

/-- A block does not start with a zero. -/
theorem BlockWriter.image_startsNonzero (bw : BlockWriter) {header : Bytes}
    (h : header = [] ∨ StartsNonzero header) : StartsNonzero (bw.image header) := by
  rcases h with rfl | h
  · exact ⟨bw.type.byte, _, rfl, bw.type.byte_ne_zero⟩
  · exact (h.append _).append _

/-- The last key of a block under way. -/
theorem lastEntryKey_eq {codec : RecordCodec α} (es : List (Entry α)) :
    lastEntryKey codec [] es = lastKey codec.key (es.map Entry.record) := by
  rcases eq_nil_or_concat' es with rfl | ⟨init, e, rfl⟩
  · rfl
  · rw [lastEntryKey_append, map_append]
    simp [lastKey, Entry.key]

variable {cs : List (Chunk (opts.Record type))} {rs : List (opts.Record type)} {w₁ : Writer}

/-- `writer_reinit_block_writer` at the start of a block. -/
theorem Written.reinit (h : Written opts hdr stats type base cs w) :
    Writing opts hdr stats type base cs [] (writerReinitBlockWriter opts type w) := by
  have hlen : hdr.length = headerSize opts.hashId.version := by
    rw [← h.header_eq, length_writerWriteHeader]
  have hheaders := opts.headers_le
  refine ⟨{ h with }, ?_⟩
  unfold writerReinitBlockWriter
  generalize hstart : (if w.next = 0 then headerSize opts.hashId.version else 0) = start
  have hle : start + 4 ≤ opts.blockSize := by
    rw [← hstart]
    split <;> omega
  obtain ⟨bw, hinit⟩ :
      ∃ bw, blockWriterInit type opts.blockSize start opts.restartInterval = some bw :=
    ⟨_, dif_pos ⟨opts.restartInterval_pos, hle⟩⟩
  obtain ⟨hholds, htype, hsize, hoff⟩ :
      bw.Holds (opts.codec type) [] ∧ _ := BlockWriter.Holds.of_init hinit
  grind

/-- `writer_flush_block` when there is something to write. -/
theorem Writing.flush (zlib : Zlib) (htype : type ≠ .log)
    (h : Writing opts hdr stats type base cs rs w) (hne : rs ≠ []) :
    (∃ c, c.records = rs ∧ c.off = w.next ∧
      Written opts hdr stats type base (cs ++ [c]) (writerFlushBlock zlib opts w)) ∧
    Evolves type w (writerFlushBlock zlib opts w) := by
  obtain ⟨bw, es, hbw, hty, hsize, hoff, hes, hholds⟩ := h.current
  have hentries : bw.entries ≠ 0 := by
    rw [hholds.entries, ← length_map Entry.record, hes]
    exact fun hlen => hne (length_eq_zero_iff.mp hlen)
  generalize hheader : (if w.next = 0 then hdr else []) = header
  have hheaderLen : header.length = bw.headerOff := by
    rw [hoff, ← hheader]
    split <;> rfl
  have hraw : blockWriterFinish zlib header bw = bw.image header :=
    blockWriterFinish_eq (hty ▸ htype) header
  have hlen := bw.length_image hheaderLen
  have hstart : StartsNonzero (bw.image header) := by
    refine bw.image_startsNonzero ?_
    rw [← hheader]
    split
    · exact .inr (h.header_eq ▸ writerWriteHeader_startsNonzero w)
    · exact .inl rfl
  generalize hpadding : (if opts.unpadded then 0 else opts.blockSize - bw.size) = padding
  have hflush : writerFlushBlock zlib opts w =
      { paddedWrite (bw.image header) padding w with
        stats := sectionStats stats type base (cs.length + 1)
        index := w.index ++ [⟨UInt64.ofNat w.next, bw.lastKey⟩]
        next := w.next + padding + bw.size
        blockWriter := none } := by
    have hbase : cs.length = 0 → w.next = base := by
      intro hnil
      have hchain := h.chain
      rw [length_eq_zero_iff.mp hnil] at hchain
      exact hchain.symm
    have hstats := sectionStats_succ stats type hbase
    rw [writerFlushBlock, hbw]
    dsimp only
    rw [if_neg hentries, writerFlushNonemptyBlock, h.header_eq, hheader, hraw, hlen, hty, h.stats_eq]
    grind
  rw [hflush]
  have hoffset : w.out.length + w.pendingPadding = w.next := h.next_eq.symm
  refine ⟨⟨⟨w.next, bw, header, padding, rs⟩, rfl, rfl, ?_⟩, ?_⟩
  · constructor
    case next_eq =>
      dsimp only [paddedWrite]
      grind
    case header_eq => exact h.header_eq
    case chain =>
      rw [show w.next + padding + bw.size = w.next + bw.size + padding by omega]
      exact h.chain.concat rfl
    case valid =>
      exact forall_mem_append.mpr ⟨h.valid, forall_mem_singleton.mpr (⟨hty, hsize,
        hheader.symm, hheaderLen.symm, hpadding.symm, ⟨es, hes, hholds⟩, hne⟩)⟩
    case placed =>
      intro c hc
      rcases mem_append.mp hc with hc | hc
      · exact (h.placed c hc).write hstart padding
      rw [mem_singleton.mp hc]
      rw [← hoffset]
      exact .last (w.out ++ List.replicate w.pendingPadding 0) rfl (by simp) rfl
    case index_eq =>
      rw [h.index_eq, map_append, map_singleton, hholds.lastKey, lastEntryKey_eq, hes]
      rfl
    case stats_eq =>
      rw [length_append, length_singleton]
  · refine ⟨⟨rfl, rfl, rfl, fun _ _ _ hp => hp.write hstart padding⟩, rfl, ?_⟩
    intro ty hty
    dsimp only
    rw [h.stats_eq, sectionStats, sectionStats, update_of_ne hty, update_of_ne hty]

/-- The block under way is still the same, or it has been written and another one was opened. -/
def Advanced {α : Type} (cs : List (Chunk α)) (rs : List α) (w : Writer) (cs' : List (Chunk α))
    (rs' : List α) (w' : Writer) : Prop :=
  (cs' = cs ∧ rs' = rs ∧ w'.next = w.next) ∨
    (rs ≠ [] ∧ rs' = [] ∧ ∃ c : Chunk α, c.block = (w.next, rs) ∧ cs' = cs ++ [c])

theorem Advanced.records {cs cs' : List (Chunk α)} {rs rs' : List α}
    (h : Advanced cs rs w cs' rs' w') : chunkRecords cs' ++ rs' = chunkRecords cs ++ rs := by
  rcases h with ⟨rfl, rfl, -⟩ | ⟨-, rfl, c, hc, rfl⟩
  · rfl
  · obtain rfl := (Prod.mk.inj hc).2
    simp [chunkRecords]

theorem Advanced.of_next {cs cs' : List (Chunk α)} {rs rs' : List α}
    (h : Advanced cs rs w cs' rs' w₁) (hnext : w'.next = w₁.next) :
    Advanced cs rs w cs' rs' w' := by
  rwa [Advanced, hnext]

/-- The chunks of a section once the block under way is written. -/
def Closed {α : Type} (cs : List (Chunk α)) (rs : List α) (next : Nat) (cs' : List (Chunk α)) :
    Prop :=
  (rs = [] ∧ cs' = cs) ∨ (rs ≠ [] ∧ ∃ c : Chunk α, c.block = (next, rs) ∧ cs' = cs ++ [c])

theorem Closed.records {cs cs' : List (Chunk α)} {rs : List α}
    (h : Closed cs rs next cs') : chunkRecords cs' = chunkRecords cs ++ rs := by
  rcases h with ⟨rfl, rfl⟩ | ⟨-, c, hc, rfl⟩
  · rw [append_nil]
  · obtain rfl := (Prod.mk.inj hc).2
    simp [chunkRecords]

variable {r : opts.Record type}

/-- A record that does not fit leaves no trace. -/
theorem currentBlockAdd_error {e : ReftableError}
    (hadd : currentBlockAdd opts type r w = .error e w') : w' = w := by
  unfold currentBlockAdd at hadd
  grind

/-- What a call that adds the record `r` to a section leaves behind: the record at the end of the
block under way, or of a new one, or the same records as before if it was rejected. -/
def Added (opts : WriterOptions) (hdr : Bytes) (stats : BlockType → BlockStats) (base : Nat)
    (cs : List (Chunk (opts.Record type))) (rs : List (opts.Record type)) (w : Writer)
    (r : opts.Record type) : EStateM.Result ReftableError Writer Unit → Prop
  | .ok _ w' => ∃ cs' rs', Writing opts hdr stats type base cs' (rs' ++ [r]) w' ∧
      Advanced cs rs w cs' rs' w' ∧ Evolves type w w'
  | .error _ w' => ∃ cs' rs', Writing opts hdr stats type base cs' rs' w' ∧
      Advanced cs rs w cs' rs' w' ∧ Evolves type w w'

section

variable (h : Writing opts hdr stats type base cs rs w)

include h

/-- `writer_flush_block` -/
theorem Writing.close (zlib : Zlib) (htype : type ≠ .log) :
    (∃ cs', Closed cs rs w.next cs' ∧
      Written opts hdr stats type base cs' (writerFlushBlock zlib opts w)) ∧
    (rs = [] → writerFlushBlock zlib opts w = w) ∧
    Evolves type w (writerFlushBlock zlib opts w) := by
  by_cases hne : rs = []
  · -- an empty block is not written
    have hflush : writerFlushBlock zlib opts w = w := by
      obtain ⟨bw, es, hbw, -, -, -, hes, hholds⟩ := h.current
      have hentries : bw.entries = 0 := by
        rw [hholds.entries, ← length_map Entry.record, hes, hne]
        rfl
      rw [writerFlushBlock, hbw]
      exact if_pos hentries
    rw [hflush]
    exact ⟨⟨cs, .inl ⟨hne, rfl⟩, h.toWritten⟩, fun _ => rfl, Evolves.refl type w⟩
  · obtain ⟨⟨c, hrecords, hoff, hwritten⟩, hev⟩ := h.flush zlib htype hne
    refine ⟨⟨cs ++ [c], .inr ⟨hne, c, ?_, rfl⟩, hwritten⟩, fun hnil => absurd hnil hne, hev⟩
    rw [Chunk.block, hoff, hrecords]

/-- The block under way is written, if there is anything in it, and another one is opened. -/
theorem Writing.reopen (zlib : Zlib) (htype : type ≠ .log) :
    ∃ cs', Writing opts hdr stats type base cs' []
        (writerReinitBlockWriter opts type (writerFlushBlock zlib opts w)) ∧
      Advanced cs rs w cs' [] (writerReinitBlockWriter opts type (writerFlushBlock zlib opts w)) ∧
      Evolves type w (writerReinitBlockWriter opts type (writerFlushBlock zlib opts w)) := by
  obtain ⟨⟨cs', hclosed, hwritten⟩, hflush, hev⟩ := h.close zlib htype
  have hreinit : Evolves type (writerFlushBlock zlib opts w)
      (writerReinitBlockWriter opts type (writerFlushBlock zlib opts w)) :=
    { Evolves.refl type _ with }
  refine ⟨cs', hwritten.reinit, ?_, hev.trans hreinit⟩
  rcases hclosed with ⟨rfl, rfl⟩ | ⟨hne, c, hc, rfl⟩
  · exact .inl ⟨rfl, rfl, (congrArg Writer.next (hflush rfl) :)⟩
  · exact .inr ⟨hne, rfl, c, hc, rfl⟩

/-- A record that fits into the block under way. -/
theorem Writing.currentBlockAdd_ok (htype : type ≠ .log)
    (hadd : currentBlockAdd opts type r w = .ok () w') :
    Writing opts hdr stats type base cs (rs ++ [r]) w' ∧ w'.next = w.next ∧ Evolves type w w' := by
  have := recordCodec_lawful opts.hashId.size htype
  obtain ⟨bw, es, hbw, hty, hsize, hoff, hes, hholds⟩ := h.current
  rw [currentBlockAdd, hbw] at hadd
  dsimp only at hadd
  cases hblock : blockWriterAdd (opts.codec type) bw r with
  | error e => rw [hblock] at hadd; cases hadd
  | ok bw' =>
    rw [hblock] at hadd
    obtain ⟨-, rfl⟩ := EStateM.Result.ok.inj hadd
    obtain ⟨e, he, hholds'⟩ := hholds.add (hsize ▸ opts.blockSize_lt)
      (RecordCodec.restores _ r) hblock
    obtain ⟨hty', hsize', hoff'⟩ := blockWriterAdd_frame hblock
    refine ⟨⟨{ h.toWritten with }, ?_⟩, rfl, { Evolves.refl type w with }⟩
    grind

/-- A record that is rejected at once. -/
theorem Writing.rejected (r : opts.Record type)
    (e : ReftableError) : Added opts hdr stats base cs rs w r (.error e w) :=
  ⟨cs, rs, h, .inl ⟨rfl, rfl, rfl⟩, Evolves.refl type w⟩

/-- **Adding a record to a section.** -/
theorem Writing.add (zlib : Zlib) (htype : type ≠ .log) (r : opts.Record type) :
    Added opts hdr stats base cs rs w r (addFlushing zlib opts type r w) := by
  unfold addFlushing onTooBig
  cases hadd : currentBlockAdd opts type r w with
  | ok u w' =>
    obtain ⟨hwriting, hnext, hev⟩ := h.currentBlockAdd_ok htype hadd
    exact ⟨cs, rs, hwriting, .inl ⟨rfl, rfl, hnext⟩, hev⟩
  | error e w₁ =>
    obtain rfl := currentBlockAdd_error hadd
    dsimp only
    split
    · obtain ⟨cs', hreopen, hadvanced, hev⟩ := h.reopen zlib htype
      cases hretry : currentBlockAdd opts type r
        (writerReinitBlockWriter opts type (writerFlushBlock zlib opts w₁)) with
      | ok u w' =>
        obtain ⟨hwriting, hnext, hev'⟩ := hreopen.currentBlockAdd_ok htype hretry
        exact ⟨cs', [], hwriting, hadvanced.of_next hnext, hev.trans hev'⟩
      | error e' w' =>
        obtain rfl := currentBlockAdd_error hretry
        exact ⟨cs', [], hreopen, hadvanced, hev⟩
    · exact h.rejected r e

/-- The last key is not part of the layout. -/
theorem Writing.setLastKey (key : Bytes) :
    Writing opts hdr stats type base cs rs { w with lastKey := key } := { h with }

/-- `writer_add_record` inside a section: it checks the order of the keys, and then adds the
record. -/
theorem Writing.writerAddRecord_eq (r : opts.Record type) :
    writerAddRecord zlib opts type r w =
      if (opts.codec type).key r ≤ w.lastKey then .error .api w
      else addFlushing zlib opts type r
        { w with lastKey := (opts.codec type).key r } := by
  obtain ⟨bw, es, hbw, hty, -⟩ := h.current
  unfold writerAddRecord
  grind

/-- **`writer_add_record`** appends the record or leaves the records of the section as they were. -/
theorem Writing.addRecord (zlib : Zlib) (htype : type ≠ .log) (r : opts.Record type) :
    Added opts hdr stats base cs rs w r (writerAddRecord zlib opts type r w) := by
  rw [h.writerAddRecord_eq]
  split
  · exact h.rejected r .api
  have hev : Evolves type w { w with lastKey := (opts.codec type).key r } :=
    { Evolves.refl type w with }
  have hadded := (h.setLastKey ((opts.codec type).key r)).add zlib htype r
  generalize addFlushing zlib opts type r _ = result at hadded ⊢
  cases result <;> obtain ⟨cs', rs', hwriting, hadvanced, hev'⟩ := hadded <;>
    exact ⟨cs', rs', hwriting, hadvanced, hev.trans hev'⟩

/-- A list of records that are all accepted. -/
theorem Writing.addAll (htype : type ≠ .log)
    {l : List (opts.Record type)} (hok : l.forM (writerAddRecord zlib opts type) w = .ok () w') :
    ∃ cs' rs', Writing opts hdr stats type base cs' rs' w' ∧
      chunkRecords cs' ++ rs' = chunkRecords cs ++ rs ++ l ∧ (rs ≠ [] ∨ l ≠ [] → rs' ≠ []) ∧
      Evolves type w w' := by
  induction l generalizing cs rs w with
  | nil =>
    obtain ⟨-, rfl⟩ := EStateM.Result.ok.inj hok
    exact ⟨cs, rs, h, (append_nil _).symm, fun hne => hne.resolve_right (absurd rfl),
      Evolves.refl type _⟩
  | cons r l ih =>
    obtain ⟨u, w₁, hadd, hrest⟩ := EStateM_bind_eq_ok hok
    obtain ⟨cs₁, rs₁, hwriting, hadvanced, hev⟩ := hadd ▸ h.addRecord zlib htype r
    obtain ⟨cs', rs', hwriting', hrecords, hne, hev'⟩ := ih hwriting hrest
    refine ⟨cs', rs', hwriting', ?_, fun _ => hne (.inl (by simp)), hev.trans hev'⟩
    rw [hrecords, ← append_assoc, hadvanced.records]
    simp only [append_assoc, singleton_append]

end

/-- At the start of a section. -/
theorem Written.nil (type : BlockType) (hnext : w.next = w.out.length + w.pendingPadding)
    (hheader : writerWriteHeader opts w = hdr) (hindex : w.index = []) :
    Written opts hdr w.stats type w.next [] w where
  next_eq := hnext
  header_eq := hheader
  chain := rfl
  valid := nofun
  placed := nofun
  index_eq := hindex
  stats_eq := by simp [sectionStats]

/-- One level of an index. -/
theorem writeLevel_spec (hnext : w.next = w.out.length + w.pendingPadding)
    (hheader : writerWriteHeader opts w = hdr) (hne : w.index ≠ [])
    (hok : w.index.forM (writerAddRecord zlib opts .index)
      { writerReinitBlockWriter opts .index w with index := [] } = .ok () w₁) :
    (∃ top : List (Chunk (opts.Record .index)), top ≠ [] ∧
      chunkRecords top = w.index ∧
      Written opts hdr w.stats .index w.next top (writerFlushBlock zlib opts w₁)) ∧
    Evolves .index w (writerFlushBlock zlib opts w₁) := by
  have hstart : Written opts hdr w.stats .index w.next [] { w with index := [] } :=
    Written.nil (w := { w with index := [] }) .index hnext hheader rfl
  have hev : Evolves .index w { writerReinitBlockWriter opts .index w with index := [] } :=
    { Evolves.refl .index w with }
  obtain ⟨cs, rs, hwriting, hrecords, hrs, hev₁⟩ := hstart.reinit.addAll (by decide) hok
  obtain ⟨⟨c, hc, -, hwritten⟩, hev₂⟩ := hwriting.flush zlib (by decide) (hrs (.inr hne))
  have hall : chunkRecords (cs ++ [c]) = chunkRecords cs ++ rs := by
    simp [chunkRecords, ← hc]
  exact ⟨⟨cs ++ [c], by simp, hall.trans hrecords, hwritten⟩, (hev.trans hev₁).trans hev₂⟩

end Sections

/-! ## The levels of an index -/

section Levels

/-- All of these chunks are blocks of an index. -/
def IndexChunks (opts : WriterOptions) (hdr : Bytes) (w : Writer) (cs : List (Chunk IndexRecord)) :
    Prop :=
  ∀ c ∈ cs, c.Valid opts hdr indexRecordCodec .index ∧ c.In w

/-- The highest level `top` of an index over some chunks, which starts at `base`. All levels start
behind `lo`. -/
inductive Levels (opts : WriterOptions) (hdr : Bytes) (w : Writer) (key : α → Bytes)
    (data : List (Chunk α)) (lo : Nat) : Nat → Nat → List (Chunk IndexRecord) → Prop
  | data {base : Nat} {top : List (Chunk IndexRecord)} (hlt : lo < base)
    (hchunks : IndexChunks opts hdr w top)
    (hrecords : chunkRecords top = data.map fun c => indexRecord key c.block) :
    Levels opts hdr w key data lo 0 base top
  | level {depth base' base : Nat} {below top : List (Chunk IndexRecord)}
    (hbelow : Levels opts hdr w key data lo depth base' below) (hlt : base' < base)
    (hchunks : IndexChunks opts hdr w top)
    (hrecords : chunkRecords top = below.map fun c => indexRecord IndexRecord.lastKey c.block) :
    Levels opts hdr w key data lo (depth + 1) base top

variable {key : α → Bytes} {data cs : List (Chunk α)} {lo depth stop : Nat}
  {top : List (Chunk IndexRecord)}

theorem IndexChunks.mono (h : IndexChunks opts hdr w top) (hplaced : StaysPlaced w w') :
    IndexChunks opts hdr w' top :=
  fun c hc => ⟨(h c hc).1, hplaced _ _ _ (h c hc).2⟩

section

variable (h : Levels opts hdr w key data lo depth base top)

include h

/-- An index stays when more is written. -/
theorem Levels.mono
    (hplaced : StaysPlaced w w') : Levels opts hdr w' key data lo depth base top := by
  induction h with
  | data hlt hchunks hrecords => exact .data hlt (hchunks.mono hplaced) hrecords
  | level _ hlt hchunks hrecords ih => exact .level ih hlt (hchunks.mono hplaced) hrecords

theorem Levels.indexChunks : IndexChunks opts hdr w top := by
  cases h with
  | data _ hchunks | level _ _ hchunks => exact hchunks

theorem Levels.depth_lt : depth < base := by
  induction h with
  | data | level => omega

end

/-- An index over the first level of an index. -/
theorem Levels.over {below : List (Chunk IndexRecord)} {base' : Nat}
    (hbelow : Levels opts hdr w key data lo 0 base' below)
    (h : Levels opts hdr w IndexRecord.lastKey below base' depth base top) :
    Levels opts hdr w key data lo (depth + 1) base top := by
  induction h with
  | data hlt hchunks hrecords => exact .level hbelow hlt hchunks hrecords
  | level _ hlt hchunks hrecords ih => exact .level ih hlt hchunks hrecords

/-- What was written from `w` to `w'` as an index over some chunks: nothing, if there are only a few
of them, or an index that starts at `indexStart`. -/
def IndexWritten (opts : WriterOptions) (hdr : Bytes) (key : α → Bytes) (data : List (Chunk α))
    (lo : Nat) (w w' : Writer) (noIndex indexStart : Nat) : Prop :=
  (data.length ≤ indexThreshold opts ∧ indexStart = noIndex ∧ w'.next = w.next ∧
      w'.stats = w.stats) ∨
    indexThreshold opts < data.length ∧ ∃ depth top,
      Levels opts hdr w' key data lo depth indexStart top ∧ top ≠ [] ∧
      Chain indexStart top w'.next ∧ (w.stats .index).blocks < (w'.stats .index).blocks ∧
      ∃ c : Chunk IndexRecord, c.off = w.next ∧ c.Valid opts hdr indexRecordCodec .index ∧ c.In w'

theorem Chunk.lt_stop (c : Chunk α) : c.off < c.stop := by
  unfold Chunk.stop BlockWriter.size
  omega

theorem Chain.le (h : Chain base cs stop) : base ≤ stop := by
  induction cs generalizing base with
  | nil => exact Nat.le_of_eq h
  | cons c cs ih =>
    have := ih h.2
    have hlt := c.lt_stop
    rw [h.1] at hlt
    omega

theorem Chain.lt (h : Chain base cs stop) (hne : cs ≠ []) : base < stop := by
  obtain ⟨c, cs, rfl⟩ := exists_cons_of_ne_nil hne
  have hle := Chain.le h.2
  have hlt := c.lt_stop
  rw [h.1] at hlt
  omega

/-- A round of the loop of `writer_finish_section`. -/
theorem writeIndexLevels_succ (fuel indexStart : Nat) (w : Writer) :
    writeIndexLevels zlib opts (fuel + 1) indexStart w =
      if w.index.length ≤ indexThreshold opts then .ok indexStart w
      else (do
        w.index.forM (writerAddRecord zlib opts .index)
        modify (writerFlushBlock zlib opts)
        writeIndexLevels zlib opts fuel w.next : WriterM Nat)
          { writerReinitBlockWriter opts .index w with index := [] } := by
  change (if _ then _ else _ : WriterM Nat) w = _
  split <;> rfl

/-- **The loop of `writer_finish_section`** writes an index over the blocks of the section, or
nothing. -/
theorem writeIndexLevels_spec {fuel : Nat} : ∀ {α : Type} {key : α → Bytes} {data : List (Chunk α)}
    {lo noIndex indexStart : Nat} {w w' : Writer},
    w.next = w.out.length + w.pendingPadding → writerWriteHeader opts w = hdr →
    w.index = (data.map fun c => indexRecord key c.block) → (w.index ≠ [] → lo < w.next) →
    writeIndexLevels zlib opts fuel noIndex w = .ok indexStart w' →
    w'.next = w'.out.length + w'.pendingPadding ∧ writerWriteHeader opts w' = hdr ∧
      Evolves .index w w' ∧ IndexWritten opts hdr key data lo w w' noIndex indexStart := by
  induction fuel with
  | zero =>
    intro α key data lo noIndex indexStart w w' _ _ _ _ hok
    cases hok
  | succ fuel ih =>
    intro α key data lo noIndex indexStart w w' hnext hheader hindex hlo hok
    have hlength : w.index.length = data.length := by rw [hindex, length_map]
    rw [writeIndexLevels_succ] at hok
    split at hok
    · rename_i hlen
      obtain ⟨rfl, rfl⟩ := EStateM.Result.ok.inj hok
      exact ⟨hnext, hheader, Evolves.refl _ _, .inl ⟨hlength ▸ hlen, rfl, rfl, rfl⟩⟩
    rename_i hlen
    have hne : w.index ≠ [] := by grind
    obtain ⟨u, w₁, hadd, hok⟩ := EStateM_bind_eq_ok hok
    obtain ⟨⟨level, hlevel, hrecords, hwritten⟩, hev⟩ := writeLevel_spec hnext hheader hne hadd
    -- the level is the data of the levels above it
    have hlt := hwritten.chain.lt hlevel
    obtain ⟨hnext', hheader', hev', hindexWritten⟩ :=
      ih hwritten.next_eq hwritten.header_eq hwritten.index_eq (fun _ => hlt) hok
    have hblocks : (w.stats .index).blocks < ((writerFlushBlock zlib opts w₁).stats .index).blocks := by
      rw [hwritten.stats_eq, sectionStats, update_self]
      grind
    have hfirst : ∃ c : Chunk IndexRecord, c.off = w.next ∧
        c.Valid opts hdr indexRecordCodec .index ∧ c.In w' := by
      obtain ⟨c, cs, rfl⟩ := exists_cons_of_ne_nil hlevel
      exact ⟨c, hwritten.chain.1, hwritten.valid c mem_cons_self,
        hev'.placed _ _ _ (hwritten.placed c mem_cons_self)⟩
    have hdata : Levels opts hdr (writerFlushBlock zlib opts w₁) key data lo 0 w.next level :=
      .data (hlo hne) (fun c hc => ⟨hwritten.valid c hc, hwritten.placed c hc⟩) (hrecords.trans hindex)
    refine ⟨hnext', hheader', hev.trans hev', .inr ⟨by omega, ?_⟩⟩
    rcases hindexWritten with ⟨-, rfl, hsame, hstats⟩ |
      ⟨-, depth, top, hlevels, htop, hchain, hmore, -⟩
    · exact ⟨0, level, hdata.mono hev'.placed, hlevel, hsame ▸ hwritten.chain, hstats ▸ hblocks, hfirst⟩
    · exact ⟨depth + 1, top, (hdata.mono hev'.placed).over hlevels, htop, hchain, hblocks.trans hmore,
        hfirst⟩

end Levels

/-! ## Finished sections -/

section Finished

/-- A section with the index over it, from `base` to `stop`. -/
structure SectionDone (opts : WriterOptions) (hdr : Bytes) (type : BlockType) (w : Writer)
    (indexOffset base : Nat) (cs : List (Chunk (opts.Record type))) (stop : Nat) :
    Prop where
  valid : ∀ c ∈ cs, c.Valid opts hdr (opts.codec type) type
  placed : ∀ c ∈ cs, c.In w
  index : (indexOffset = 0 ∧ Chain base cs stop) ∨ ∃ mid depth top, Chain base cs mid ∧
    (∃ c : Chunk IndexRecord, c.off = mid ∧ c.Valid opts hdr indexRecordCodec .index ∧ c.In w) ∧
    Levels opts hdr w (opts.codec type).key cs 0 depth indexOffset top ∧
    top ≠ [] ∧ Chain indexOffset top stop

variable {fuel : Nat} {cs : List (Chunk (opts.Record type))} {rs : List (opts.Record type)}

/-- The operations of `writer_finish_section`. -/
theorem writerFinishSection_eq_ok (hok : writerFinishSection zlib opts fuel type w = .ok () w') :
    ∃ indexStart w₁, writeIndexLevels zlib opts fuel 0 (writerFlushBlock zlib opts w) =
        .ok indexStart w₁ ∧
      w' = { w₁ with
        index := []
        stats := update w₁.stats type
          { w₁.stats type with
            indexBlocks := (w₁.stats .index).blocks - (w.stats .index).blocks
            indexOffset := indexStart }
        lastKey := [] } := by
  change (writeIndexLevels zlib opts fuel 0 >>= _) (writerFlushBlock zlib opts w) = _ at hok
  obtain ⟨indexStart, w₁, hlevels, hrest⟩ := EStateM_bind_eq_ok hok
  exact ⟨indexStart, w₁, hlevels, (EStateM.Result.ok.inj hrest).2.symm⟩

/-- What `writer_finish_section` makes of a section. -/
structure FinishSpec (opts : WriterOptions) (hdr : Bytes) (stats : BlockType → BlockStats)
    (type : BlockType) (base : Nat) (cs : List (Chunk (opts.Record type)))
    (w w' : Writer) : Prop where
  next_eq : w'.next = w'.out.length + w'.pendingPadding
  header_eq : writerWriteHeader opts w' = hdr
  index_nil : w'.index = []
  done : SectionDone opts hdr type w' (w'.stats type).indexOffset base cs w'.next
  keeps : Keeps w w'
  stats_of_ne : ∀ ty, ty ≠ type → ty ≠ .index → w'.stats ty = w.stats ty
  offset_eq : (w'.stats type).offset = (sectionStats stats type base cs.length type).offset
  indexBlocks : 0 < (w'.stats type).indexBlocks ↔ 0 < (w'.stats type).indexOffset
  indexed : 0 < (w'.stats type).indexOffset ↔ indexThreshold opts < cs.length

/-- **`writer_finish_section`** writes the last block and the index. -/
theorem Writing.finish (htype : type ≠ .log) (hindex : type ≠ .index)
    (h : Writing opts hdr stats type base cs rs w)
    (hok : writerFinishSection zlib opts fuel type w = .ok () w') :
    ∃ cs', Closed cs rs w.next cs' ∧ FinishSpec opts hdr stats type base cs' w w' ∧
      w'.objectIdLen = w.objectIdLen := by
  obtain ⟨indexStart, w₂, hlevels, rfl⟩ := writerFinishSection_eq_ok hok
  obtain ⟨⟨cs', hclosed, hwritten⟩, -, hev⟩ := h.close zlib htype
  generalize writerFlushBlock zlib opts w = w₁ at hlevels hwritten hev
  have hlo : w₁.index ≠ [] → 0 < w₁.next := by
    rw [hwritten.index_eq]
    intro hne
    have hlt := hwritten.chain.lt (fun hnil => hne (by rw [hnil]; rfl))
    omega
  obtain ⟨hnext, hheader, hev', hindexWritten⟩ :=
    writeIndexLevels_spec hwritten.next_eq hwritten.header_eq hwritten.index_eq hlo hlevels
  have hblocks : (w₁.stats .index).blocks = (w.stats .index).blocks := by
    rw [hev.stats .index hindex.symm]
  have hself : ∀ s : BlockStats, update w₂.stats type s type = s := fun s =>
    update_self _ _ _
  have hkeeps := hev.toKeeps.trans hev'.toKeeps
  refine ⟨cs', hclosed, ⟨hnext, hheader, rfl, ?_, { hkeeps with }, ?_, ?_, ?_, ?_⟩,
    hev'.objectIdLen.trans hev.objectIdLen⟩
  · dsimp only
    rw [hself]
    refine ⟨hwritten.valid, fun c hc => hev'.placed _ _ _ (hwritten.placed c hc), ?_⟩
    rcases hindexWritten with ⟨-, rfl, hsame, -⟩ | ⟨-, depth, top, hlevels, htop, hchain, -, hfirst⟩
    · exact .inl ⟨rfl, hsame ▸ hwritten.chain⟩
    · exact .inr ⟨w₁.next, depth, top, hwritten.chain, hfirst,
        hlevels.mono fun _ _ _ hp => hp, htop, hchain⟩
  · intro ty hty htyIndex
    dsimp only
    rw [update_of_ne hty, hev'.stats ty htyIndex, hev.stats ty hty]
  · dsimp only
    rw [hself, ← hwritten.stats_eq, hev'.stats type hindex]
  · dsimp only
    rw [hself]
    rcases hindexWritten with ⟨-, rfl, -, hstats⟩ | ⟨-, depth, top, hlevels, -, -, hmore, -⟩
    · dsimp only
      rw [hstats, hblocks, Nat.sub_self]
    · have hpos := hlevels.depth_lt
      dsimp only
      omega
  · dsimp only
    rw [hself]
    rcases hindexWritten with ⟨hlen, rfl, -⟩ | ⟨hlen, depth, top, hlevels, -⟩
    · dsimp only
      omega
    · have hpos := hlevels.depth_lt
      dsimp only
      omega

end Finished

end GitCore.Reftable
