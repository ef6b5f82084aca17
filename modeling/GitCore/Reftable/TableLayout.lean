import GitCore.Reftable.Layout

/-! # A table as its reader sees it

The chunks of a closed table are blocks for a reader of it, and the chains of chunks are sections:
a reader finds the end of a block from its padding, or from the byte that follows when there is
none. -/

namespace GitCore.Reftable

open List Overlay

variable {zlib : Zlib} {opts : WriterOptions} {hdr : Bytes} {w w' : Writer} {t : Table}
  {type : BlockType} {stats : BlockType → BlockStats} {base stop : Nat}

/-! ## From chunks to blocks -/

/-- The table is opened on what the writer has written, and its footer. -/
structure Opened (opts : WriterOptions) (hdr : Bytes) (w : Writer) (t : Table) : Prop where
  source_eq : ∃ footer, t.source = w.out ++ footer ∧ StartsNonzero footer
  size_eq : t.size = w.out.length
  version_eq : t.version = opts.hashId.version
  blockSize_eq : t.blockSize = opts.blockSize
  length_header : hdr.length = headerSize opts.hashId.version
  size_lt : t.size < 2 ^ 32

section Chunks

variable {c : Chunk (opts.Record type)} {α : Type} {codec : RecordCodec α}

/-- The headers in front of a block, as the writer and the reader see them. -/
theorem Chunk.Valid.headerOff_eq_reader {c : Chunk α}
    (hvalid : c.Valid opts hdr codec type) (ht : Opened opts hdr w t) :
    c.bw.headerOff = if c.off ≠ 0 then 0 else headerSize t.version := by
  rw [hvalid.headerOff_eq, hvalid.header_eq, ht.version_eq, ← ht.length_header]
  grind

theorem Chunk.Valid.headerOff_le {c : Chunk α}
    (hvalid : c.Valid opts hdr codec type) (ht : Opened opts hdr w t) :
    c.bw.headerOff + 4 ≤ if t.blockSize ≠ 0 then t.blockSize else defaultBlockSize := by
  have hle := opts.headers_le
  have hoff : c.bw.headerOff ≤ headerSize opts.hashId.version := by
    rw [hvalid.headerOff_eq, hvalid.header_eq, ← ht.length_header]
    split
    · exact le_rfl
    · exact Nat.zero_le _
  rw [ht.blockSize_eq, if_pos (by omega)]
  omega

/-- Where the bytes of a block are in the table. -/
theorem Placed.drop_eq {out image footer : Bytes} {pending off padding : Nat}
    (h : Placed out pending off image padding) :
    (off + image.length = out.length ∧ pending = padding ∧
      (out ++ footer).drop off = image ++ footer) ∨
    ∃ rest, StartsNonzero rest ∧ off + image.length + padding < out.length ∧
      (out ++ footer).drop off = image ++ (List.replicate padding 0 ++ rest) := by
  cases h with
  | last start hout hoff hpending =>
    grind
  | inner start rest hout hoff hrest =>
    subst hout hoff
    refine .inr ⟨rest ++ footer, hrest.append _, ?_, ?_⟩
    · obtain ⟨b, rest', rfl, -⟩ := hrest
      grind
    · simp only [append_assoc, drop_left]

/-- The byte behind a block without padding. -/
theorem StartsNonzero.any {bytes : Bytes} (h : StartsNonzero bytes) :
    (bytes[0]?).any (· ≠ 0) = true := by
  obtain ⟨b, rest, rfl, hb⟩ := h
  simpa using hb

/-- The chunk is not empty. -/
theorem Chunk.image_ne_nil (c : Chunk α) : c.image ≠ [] := by
  intro hnil
  have hlen := congrArg List.length hnil
  simp [Chunk.image, BlockWriter.image] at hlen

/-- The bytes of the table from a chunk on: it is the last one, or its padding follows, and then
something else. -/
theorem Chunk.Valid.source_drop {c : Chunk α}
    (hvalid : c.Valid opts hdr codec type) (hin : c.In w) (ht : Opened opts hdr w t) :
    ∃ tail, t.source.drop c.off = c.bw.image c.header ++ tail ∧ c.off < t.size ∧
      ((c.off + c.bw.size = t.size ∧ w.pendingPadding = c.padding ∧ StartsNonzero tail) ∨
        ∃ rest, tail = List.replicate c.padding 0 ++ rest ∧ StartsNonzero rest ∧ c.stop < t.size) := by
  obtain ⟨footer, hsource, hfooter⟩ := ht.source_eq
  have hlen := hvalid.length_image
  have hpos : 0 < c.bw.size := by
    unfold BlockWriter.size
    omega
  rw [hsource, ht.size_eq]
  rcases hin.drop_eq with ⟨hend, hpending, hdrop⟩ | ⟨rest, hrest, hlt, hdrop⟩
  · refine ⟨footer, hdrop, by omega, .inl ⟨by omega, hpending, hfooter⟩⟩
  refine ⟨_, hdrop, by omega, .inr ⟨rest, rfl, hrest, ?_⟩⟩
  rw [Chunk.stop, ← hlen]
  exact hlt

/-- A chunk is a block for the reader, which is followed by the next chunk or by the end of the
table. -/
theorem Chunk.Valid.blockAt (htype : type ≠ .log) (hvalid : c.Valid opts hdr (opts.codec type) type)
    (hin : c.In w) (ht : Opened opts hdr w t) :
    (c.off + c.bw.size = t.size ∧ w.pendingPadding = c.padding ∧
      BlockAt zlib t type c.off c.records t.size) ∨
    (c.stop < t.size ∧ BlockAt zlib t type c.off c.records c.stop) := by
  obtain ⟨es, hes, hholds⟩ := hvalid.holds
  obtain ⟨tail, hdrop, hoff, htail⟩ := hvalid.source_drop hin ht
  have hsize := hvalid.size_le
  have hsizeLt := opts.blockSize_lt
  have hlt := ht.size_lt
  have hne : t.blockSize ≠ 0 := by
    rw [ht.blockSize_eq]
    have := opts.headers_le
    omega
  obtain ⟨block, hinit, hblock, -, hty, hfull⟩ := hholds.blockInit zlib (by omega)
    hvalid.headerOff_eq.symm (by omega) hdrop (hvalid.headerOff_le ht)
    (by rw [hvalid.type_eq]; exact htype)
  rw [hvalid.type_eq] at hinit hty
  rw [fullSize, if_neg hne, ht.blockSize_eq] at hfull
  have hinit' : ∀ want, want = none ∨ want = some type →
      tableInitBlock zlib t c.off want = .ok (some block) := by
    intro want hwant
    unfold tableInitBlock
    rw [if_neg (by omega), ← hvalid.headerOff_eq_reader ht]
    exact hinit want hwant
  have hblockAt : ∀ next, 0 < block.fullBlockSize → c.off + block.fullBlockSize = next →
      BlockAt zlib t type c.off c.records next := by
    intro next hpos hnext
    exact ⟨hvalid.ne_nil, by omega, hoff, block, hinit', hty, hes ▸ hblock.reads, hnext⟩
  have hpos : 0 < c.bw.size := by
    unfold BlockWriter.size
    omega
  -- the size of a block without padding, from the byte behind it
  have hunpadded : StartsNonzero tail → block.fullBlockSize = c.bw.size := by
    intro htail
    rw [hfull, htail.any]
    grind
  rcases htail with ⟨hend, hpending, htail⟩ | ⟨rest, rfl, hrest, hstop⟩
  · grind
  have hsame : block.fullBlockSize = c.bw.size + c.padding := by
    rcases Nat.eq_zero_or_pos c.padding with hzero | hpadding
    · rw [hzero] at hunpadded ⊢
      exact hunpadded hrest
    -- the padding starts with a zero
    obtain ⟨n, hn⟩ := Nat.exists_eq_succ_of_ne_zero (Nat.ne_of_gt hpadding)
    have heq := hvalid.padding_eq
    grind
  refine .inr ⟨hstop, hblockAt _ (by omega) ?_⟩
  rw [hsame, Chunk.stop]
  omega

/-- A block of another type than the wanted one. -/
theorem Chunk.Valid.tableInitBlock_other {c : Chunk α} {other : BlockType}
    (hvalid : c.Valid opts hdr codec other) (hin : c.In w) (ht : Opened opts hdr w t)
    (hne : other ≠ type) : tableInitBlock zlib t c.off (some type) = .ok none := by
  obtain ⟨tail, hdrop, hoff, -⟩ := hvalid.source_drop hin ht
  have hsize := hvalid.size_le
  have hsizeLt := opts.blockSize_lt
  have hlt := ht.size_lt
  unfold tableInitBlock
  rw [if_neg (by omega), ← hvalid.headerOff_eq_reader ht]
  refine BlockWriter.blockInit_other zlib (by omega) hvalid.headerOff_eq.symm (by omega) hdrop
    (hvalid.headerOff_le ht) ?_
  rw [hvalid.type_eq]
  exact hne

/-- No block of the type starts at an offset: it is the end of the table, or a block of another type
starts there. -/
def EndsAt (opts : WriterOptions) (hdr : Bytes) (w : Writer) (type : BlockType) (stop : Nat) : Prop :=
  stop = w.next ∨ ∃ (other : BlockType) (c : Chunk (opts.Record other)),
    other ≠ type ∧ c.off = stop ∧ c.Valid opts hdr (opts.codec other) other ∧
      c.In w

/-- The end of a section. -/
theorem EndsAt.section_nil (h : EndsAt opts hdr w type stop)
    (hnext : w.next = w.out.length + w.pendingPadding) (ht : Opened opts hdr w t) :
    Section zlib t type stop ([] : List (Nat × List (opts.Record type))) := by
  change tableInitBlock zlib t stop (some type) = .ok none
  rcases h with rfl | ⟨other, c, hne, rfl, hvalid, hin⟩
  · unfold tableInitBlock
    rw [if_pos (by rw [ht.size_eq]; omega)]
  · exact hvalid.tableInitBlock_other hin ht hne

/-- **A chain of chunks is a section** for the reader. -/
theorem section_of_chain {cs : List (Chunk (opts.Record type))}
    (htype : type ≠ .log) (hnext : w.next = w.out.length + w.pendingPadding)
    (ht : Opened opts hdr w t) (hvalid : ∀ c ∈ cs, c.Valid opts hdr (opts.codec type) type)
    (hin : ∀ c ∈ cs, c.In w) (hchain : Chain base cs stop) (hend : EndsAt opts hdr w type stop) :
    Section zlib t type base (cs.map Chunk.block) := by
  induction cs generalizing base with
  | nil =>
    obtain rfl : base = stop := hchain
    exact hend.section_nil hnext ht
  | cons c cs ih =>
    obtain ⟨rfl, hrest⟩ := hchain
    have hsection := ih (forall_mem_cons.mp hvalid).2 (forall_mem_cons.mp hin).2 hrest
    refine ⟨rfl, ?_⟩
    rcases (hvalid c mem_cons_self).blockAt htype (hin c mem_cons_self) ht with
      ⟨hlast, hpending, hblock⟩ | ⟨hstop, hblock⟩
    · -- the last block of the table, without its padding
      refine ⟨t.size, hblock, ?_⟩
      cases cs with
      | nil =>
        change tableInitBlock zlib t t.size (some type) = .ok none
        unfold tableInitBlock
        rw [if_pos le_rfl]
      | cons c' cs =>
        have hmem : c' ∈ c :: c' :: cs := mem_cons_of_mem _ mem_cons_self
        obtain ⟨-, -, hlt, -⟩ := (hvalid c' hmem).source_drop (hin c' hmem) ht
        have hoff : c'.off = c.stop := hrest.1
        rw [Chunk.stop] at hoff
        omega
    · exact ⟨c.stop, hblock, hsection⟩

end Chunks

/-! ## From sections of the writer to those of the reader -/

section Sections

variable {cs : List (Chunk (opts.Record type))} {top : List (Chunk IndexRecord)}

/-- The blocks of an index. -/
theorem IndexChunks.indexBlocks (h : IndexChunks opts hdr w top) (ht : Opened opts hdr w t) :
    IndexBlocks zlib t opts.hashId.size (top.map Chunk.block) := by
  intro b hb
  obtain ⟨c, hc, rfl⟩ := mem_map.mp hb
  obtain ⟨hvalid, hin⟩ := h c hc
  have hvalid' : Chunk.Valid opts hdr (opts.codec .index) .index c := hvalid
  rcases hvalid'.blockAt (by decide) hin ht with ⟨-, -, hblock⟩ | ⟨-, hblock⟩
  · exact ⟨_, hblock⟩
  · exact ⟨_, hblock⟩

/-- The levels that the writer has written are an index for the reader. -/
theorem Levels.indexOver {lo depth : Nat}
    (h : Levels opts hdr w (opts.codec type).key cs lo depth base top) (ht : Opened opts hdr w t) :
    IndexOver zlib t (cs.map Chunk.block) depth (top.map Chunk.block) := by
  induction h with
  | data _ hchunks hrecords =>
    refine .data (hchunks.indexBlocks ht) ?_
    rw [← chunkRecords_eq, hrecords, map_map]
    rfl
  | level _ _ hchunks hrecords ih =>
    refine .level ih (hchunks.indexBlocks ht) ?_
    rw [← chunkRecords_eq, hrecords, map_map]
    rfl

/-- **A finished section** is one that the reader can seek in. -/
theorem SectionDone.sectionAt {indexOffset : Nat}
    (h : SectionDone opts hdr type w indexOffset base cs stop) (htype : type ≠ .log)
    (hindex : type ≠ .index) (hnext : w.next = w.out.length + w.pendingPadding)
    (ht : Opened opts hdr w t) (hne : cs ≠ [])
    (hsorted : Run (opts.codec type).key (chunkRecords cs))
    (hoffset : (t.offsetsFor type).offset = base)
    (hindexOffset : (t.offsetsFor type).indexOffset = indexOffset)
    (hend : EndsAt opts hdr w type stop) (hend' : EndsAt opts hdr w .index stop) :
    SectionAt zlib t type (cs.map Chunk.block) := by
  refine ⟨by simpa using hne, ?_, chunkRecords_eq cs ▸ hsorted, ?_⟩
  · rw [hoffset]
    rcases h.index with ⟨-, hchain⟩ | ⟨mid, depth, top, hchain, ⟨c, hoff, hvalid, hin⟩, -⟩
    · exact section_of_chain htype hnext ht h.valid h.placed hchain hend
    · exact section_of_chain htype hnext ht h.valid h.placed hchain
        (.inr ⟨.index, c, hindex.symm, hoff, hvalid, hin⟩)
  rw [hindexOffset]
  intro hpos
  rcases h.index with ⟨hzero, -⟩ | ⟨mid, depth, top, -, -, hlevels, htop, hchain⟩
  · exact absurd hzero hpos
  have hchunks := hlevels.indexChunks
  have hsection : @Section opts.hashId.size zlib t .index indexOffset (top.map Chunk.block) :=
    section_of_chain (by decide) hnext ht (fun c hc => (hchunks c hc).1)
      (fun c hc => (hchunks c hc).2) hchain hend'
  refine ⟨depth, top.map Chunk.block, ?_, by simpa using htop, hlevels.indexOver ht, hsection⟩
  obtain ⟨c, cs', rfl⟩ := exists_cons_of_ne_nil htop
  obtain ⟨-, next, hblock, -⟩ := hsection
  exact hlevels.depth_lt.trans hblock.lt_size

end Sections

/-! ## The object section -/

/-- The record of an object: its abbreviated id, and the offsets unless they were dropped. -/
def ObjectRecord (objectIdLen : Nat) (entry : Bytes × List UInt64) (record : ObjRecord) : Prop :=
  record.hashPrefix = entry.1.take objectIdLen ∧
    (record.offsets = entry.2 ∨ record.offsets = [])

section

variable {cs : List (Chunk (opts.Record .obj))} {rs : List (opts.Record .obj)}
  (h : Writing opts hdr stats .obj base cs rs w)

include h

/-- `write_object_record` -/
theorem Writing.writeObjectRecord
    {entry : Bytes × List UInt64} (hok : writeObjectRecord zlib opts entry w = .ok () w') :
    ∃ cs' rs' record, Writing opts hdr stats .obj base cs' (rs' ++ [record]) w' ∧
      Advanced cs rs w cs' rs' w' ∧ Evolves .obj w w' ∧
      ObjectRecord w.objectIdLen entry record := by
  have hadded := h.add zlib (by decide) (⟨entry.1.take w.objectIdLen, entry.2⟩ : ObjRecord)
  rcases onTooBig_eq_ok hok with hok | ⟨w₁, herror, hretry⟩
  · rw [hok] at hadded
    obtain ⟨cs', rs', hwriting, hadvanced, hev⟩ := hadded
    exact ⟨cs', rs', _, hwriting, hadvanced, hev, rfl, .inl rfl⟩
  · rw [herror] at hadded
    obtain ⟨cs', rs', hwriting, hadvanced, hev⟩ := hadded
    obtain ⟨hwriting', hnext, hev'⟩ := hwriting.currentBlockAdd_ok (by decide) hretry
    exact ⟨cs', rs', _, hwriting', hadvanced.of_next hnext, hev.trans hev', rfl, .inr rfl⟩

/-- The records of all objects. -/
theorem Writing.writeObjectRecords {tree : List (Bytes × List UInt64)}
    (hok : tree.forM (Reftable.writeObjectRecord zlib opts) w = .ok () w') :
    ∃ cs' rs' records, Writing opts hdr stats .obj base cs' rs' w' ∧
      chunkRecords cs' ++ rs' = chunkRecords cs ++ rs ++ records ∧
      List.Forall₂ (ObjectRecord w.objectIdLen) tree records ∧ Evolves .obj w w' := by
  induction tree generalizing cs rs w with
  | nil =>
    obtain ⟨-, rfl⟩ := EStateM.Result.ok.inj hok
    exact ⟨cs, rs, [], h, (append_nil _).symm, .nil, Evolves.refl _ _⟩
  | cons entry tree ih =>
    obtain ⟨u, w₁, hadd, hrest⟩ := EStateM_bind_eq_ok hok
    obtain ⟨cs₁, rs₁, record, hwriting, hadvanced, hev, hrecord⟩ := h.writeObjectRecord hadd
    obtain ⟨cs', rs', records, hwriting', hrecords, hforall, hev'⟩ := ih hwriting hrest
    rw [hev.objectIdLen] at hforall
    refine ⟨cs', rs', record :: records, hwriting', ?_, .cons hrecord hforall, hev.trans hev'⟩
    rw [hrecords, ← append_assoc, hadvanced.records]
    simp only [append_assoc, singleton_append]

end

/-- **`writer_dump_object_index`** writes a section with the objects. -/
theorem writerDumpObjectIndex_spec (hnext : w.next = w.out.length + w.pendingPadding)
    (hheader : writerWriteHeader opts w = hdr) (hindex : w.index = []) {fuel : Nat}
    (hok : writerDumpObjectIndex zlib opts fuel w = .ok () w') :
    ∃ objs, FinishSpec opts hdr w.stats .obj w.next objs w w' ∧
      w'.objectIdLen = maxCommonPrefix 1 (w.objIndexTree.map Prod.fst) + 1 ∧
      List.Forall₂ (ObjectRecord w'.objectIdLen) w.objIndexTree (chunkRecords objs) := by
  generalize hlen : maxCommonPrefix 1 (w.objIndexTree.map Prod.fst) + 1 = objectIdLen
  change ((w.objIndexTree.forM (writeObjectRecord zlib opts)) >>= fun _ =>
    writerFinishSection zlib opts fuel .obj) (writerReinitBlockWriter opts .obj
      { w with objectIdLen := maxCommonPrefix 1 (w.objIndexTree.map Prod.fst) + 1 }) = _ at hok
  rw [hlen] at hok
  obtain ⟨u, w₁, hwrite, hfinish⟩ := EStateM_bind_eq_ok hok
  have hstart : Written opts hdr w.stats .obj w.next [] { w with objectIdLen := objectIdLen } :=
    Written.nil (w := { w with objectIdLen := objectIdLen }) .obj hnext hheader hindex
  obtain ⟨cs, rs, records, hwriting, hrecords, hforall, hev⟩ :=
    hstart.reinit.writeObjectRecords hwrite
  obtain ⟨objs, hclosed, hspec, hsame⟩ := hwriting.finish (by decide) (by decide) hfinish
  have hkeeps : Keeps w (writerReinitBlockWriter opts .obj { w with objectIdLen := objectIdLen }) :=
    ⟨rfl, rfl, rfl, fun _ _ _ hp => hp⟩
  have hidLen : w'.objectIdLen = objectIdLen := hsame.trans hev.objectIdLen
  refine ⟨objs, ?_, hidLen, ?_⟩
  · exact { hspec with
      keeps := (hkeeps.trans hev.toKeeps).trans hspec.keeps
      stats_of_ne := fun ty hty htyIndex =>
        (hspec.stats_of_ne ty hty htyIndex).trans (hev.stats ty hty) }
  · rw [hidLen, hclosed.records, hrecords]
    exact hforall

/-! ## The whole table -/

section WholeTable

/-- A table of refs before its footer is written: the refs `refs`, and behind them the objects
`objs`, made of `tree`. -/
structure TableWritten (opts : WriterOptions) (hdr : Bytes)
    (refs : List (Chunk (opts.Record .ref)))
    (objs : List (Chunk (opts.Record .obj))) (tree : List (Bytes × List UInt64))
    (w : Writer) : Prop where
  next_eq : w.next = w.out.length + w.pendingPadding
  header_eq : writerWriteHeader opts w = hdr
  refs_done : ∃ stop, SectionDone opts hdr .ref w (w.stats .ref).indexOffset 0 refs stop ∧
    ((objs = [] ∧ (w.stats .obj).offset = 0 ∧ stop = w.next) ∨
      (objs ≠ [] ∧ (w.stats .obj).offset = stop ∧ 0 < stop ∧
        SectionDone opts hdr .obj w (w.stats .obj).indexOffset stop objs w.next))
  indexed : 0 < (w.stats .ref).indexOffset ↔ indexThreshold opts < refs.length
  dumped : opts.skipIndexObjects = false → 0 < (w.stats .ref).indexOffset →
    w.objectIdLen = maxCommonPrefix 1 (tree.map Prod.fst) + 1 ∧
      List.Forall₂ (ObjectRecord w.objectIdLen) tree (chunkRecords objs)
  not_dumped : opts.skipIndexObjects = true ∨ (w.stats .ref).indexOffset = 0 →
    objs = [] ∧ w.objectIdLen = 0

variable {indexOffset fuel : Nat} {cs : List (Chunk (opts.Record type))}

/-- A finished section stays when more is written. -/
theorem SectionDone.mono
    (h : SectionDone opts hdr type w indexOffset base cs stop) (hplaced : StaysPlaced w w') :
    SectionDone opts hdr type w' indexOffset base cs stop := by
  refine ⟨h.valid, fun c hc => hplaced _ _ _ (h.placed c hc), ?_⟩
  rcases h.index with hnone | ⟨mid, depth, top, hchain, ⟨c, hoff, hvalid, hin⟩, hlevels, htop, hchain'⟩
  · exact .inl hnone
  · exact .inr ⟨mid, depth, top, hchain, ⟨c, hoff, hvalid, hplaced _ _ _ hin⟩,
      hlevels.mono hplaced, htop, hchain'⟩

/-- There is no index over nothing. -/
theorem Levels.eq_nil {α : Type} {key : α → Bytes} {lo depth : Nat}
    {top : List (Chunk IndexRecord)} (h : Levels opts hdr w key ([] : List (Chunk α)) lo depth base top) :
    top = [] := by
  have hnil : ∀ cs : List (Chunk IndexRecord), IndexChunks opts hdr w cs → chunkRecords cs = [] →
      cs = [] := by
    intro cs hchunks hrecords
    refine eq_nil_iff_forall_not_mem.mpr fun c hc => (hchunks c hc).1.ne_nil ?_
    exact flatMap_eq_nil_iff.mp hrecords c hc
  induction h with
  | data _ hchunks hrecords => exact hnil _ hchunks hrecords
  | level _ _ hchunks hrecords ih =>
    rw [ih] at hrecords
    exact hnil _ hchunks hrecords

theorem SectionDone.eq_of_nil (h : SectionDone opts hdr type w indexOffset base [] stop) :
    base = stop := by
  rcases h.index with ⟨-, hchain⟩ | ⟨mid, depth, top, -, -, hlevels, htop, -⟩
  · exact hchain
  · exact absurd hlevels.eq_nil htop

theorem SectionDone.indexOffset_le
    (h : SectionDone opts hdr type w indexOffset base cs stop) (hpos : 0 < indexOffset) :
    indexOffset ≤ stop := by
  rcases h.index with ⟨hzero, -⟩ | ⟨mid, depth, top, -, -, -, -, hchain⟩
  · omega
  · exact Chain.le hchain

/-- The operations of `writer_finish_public_section` at the end of the refs. -/
theorem writerFinishPublicSection_eq_ok {bw : BlockWriter}
    (hbw : w.blockWriter = some bw) (htype : bw.type = .ref)
    (hok : writerFinishPublicSection zlib opts fuel w = .ok () w') :
    ∃ w₁ w₂, writerFinishSection zlib opts fuel .ref w = .ok () w₁ ∧
      (if opts.skipIndexObjects = false ∧ 0 < (w₁.stats .ref).indexBlocks then
        writerDumpObjectIndex zlib opts fuel w₁ = .ok () w₂
      else w₂ = w₁) ∧
      w' = { w₂ with objIndexTree := [], blockWriter := none } := by
  obtain ⟨w₀, s, hget, hok⟩ := EStateM_bind_eq_ok hok
  obtain ⟨rfl, rfl⟩ := EStateM.Result.ok.inj hget
  rw [hbw] at hok
  dsimp only at hok
  rw [htype] at hok
  obtain ⟨u, w₁, hfinish, hrest⟩ := EStateM_bind_eq_ok hok
  obtain ⟨u', w₂, hdump, hend⟩ := EStateM_bind_eq_ok hrest
  refine ⟨w₁, w₂, hfinish, ?_, (EStateM.Result.ok.inj hend).2.symm⟩
  change (if BlockType.ref = .ref ∧ ¬ opts.skipIndexObjects = true ∧
    0 < (w₁.stats .ref).indexBlocks then writerDumpObjectIndex zlib opts fuel
    else pure () : WriterM Unit) w₁ = _ at hdump
  split at hdump
  · grind
  · rename_i hcond
    rw [if_neg fun hc => hcond ⟨rfl, by simp [hc.1], hc.2⟩]
    exact (EStateM.Result.ok.inj hdump).2.symm

/-- **Finishing a table of refs.** -/
theorem Writing.finishPublic {cs : List (Chunk (opts.Record .ref))}
    {rs : List (opts.Record .ref)} (h : Writing opts hdr stats .ref 0 cs rs w)
    (hobj : w.stats .obj = ⟨0, 0, 0, 0⟩) (hidLen : w.objectIdLen = 0)
    (hok : writerFinishPublicSection zlib opts fuel w = .ok () w') :
    ∃ refs objs, Closed cs rs w.next refs ∧ TableWritten opts hdr refs objs w.objIndexTree w' ∧
      w'.minUpdateIndex = w.minUpdateIndex := by
  obtain ⟨bw, es, hbw, hty, -⟩ := h.current
  obtain ⟨w₁, w₂, hfinish, hdump, rfl⟩ := writerFinishPublicSection_eq_ok hbw hty hok
  obtain ⟨refs, hclosed, hspec, hidLen₁⟩ := h.finish (by decide) (by decide) hfinish
  have hobj₁ : w₁.stats .obj = ⟨0, 0, 0, 0⟩ :=
    (hspec.stats_of_ne .obj (by decide) (by decide)).trans hobj
  have hlast : ∀ w : Writer, StaysPlaced w { w with objIndexTree := [], blockWriter := none } :=
    fun w _ _ _ hp => hp
  have hrefs := hspec.done
  split at hdump
  · rename_i hcond
    obtain ⟨objs, hspec', hlen, hforall⟩ :=
      writerDumpObjectIndex_spec hspec.next_eq hspec.header_eq hspec.index_nil hdump
    have hindexOffset := hspec.indexBlocks.mp hcond.2
    have href : w₂.stats .ref = w₁.stats .ref := hspec'.stats_of_ne .ref (by decide) (by decide)
    have hoffset := hspec'.offset_eq
    simp only [sectionStats, Function.update_self, hobj₁, true_and] at hoffset
    refine ⟨refs, objs, hclosed, ⟨hspec'.next_eq, hspec'.header_eq, ⟨w₁.next, ?_, ?_⟩, ?_, ?_, ?_⟩,
      hspec'.keeps.minUpdateIndex.trans hspec.keeps.minUpdateIndex⟩
    · dsimp only
      rw [href]
      exact (hrefs.mono hspec'.keeps.placed).mono (hlast w₂)
    · by_cases hne : objs = []
      · refine .inl ⟨hne, ?_, ?_⟩
        · rw [hne] at hoffset
          exact hoffset
        · subst hne
          exact hspec'.done.eq_of_nil
      · have hpos := hindexOffset.trans_le (hrefs.indexOffset_le hindexOffset)
        rw [if_pos ⟨length_pos_iff.mpr hne, hpos⟩] at hoffset
        exact .inr ⟨hne, hoffset, hpos, hspec'.done.mono (hlast w₂)⟩
    · dsimp only
      rw [href]
      exact hspec.indexed
    · intro _ _
      rw [hspec.keeps.objIndexTree] at hlen hforall
      exact ⟨hlen, hforall⟩
    grind
  · rename_i hcond
    subst hdump
    refine ⟨refs, [], hclosed, ⟨hspec.next_eq, hspec.header_eq, ⟨w₂.next, ?_, ?_⟩, hspec.indexed,
      ?_, ?_⟩, hspec.keeps.minUpdateIndex⟩
    · exact hrefs.mono (hlast w₂)
    · exact .inl ⟨rfl, by dsimp only; rw [hobj₁], rfl⟩
    · intro hskip hpos
      exact absurd ⟨hskip, hspec.indexBlocks.mpr hpos⟩ hcond
    · exact fun _ => ⟨rfl, hidLen₁.trans hidLen⟩

end WholeTable

end GitCore.Reftable
