import GitCore.Reftable.AddRefs
import GitCore.Reftable.Footer

/-! # Reading back a table of refs

The footer of a table leads a reader to its refs, and both kinds of seeks lead to the wanted ones.
There is one defect: with SHA-256, two ids that only differ in their last byte make the length of the
abbreviated ids 32, which the footer has no room for, and the reader refuses to open the table. -/

namespace GitCore.Reftable

open List Overlay

variable {zlib : Zlib} {opts : WriterOptions} {hdr : Bytes} {w w' : Writer}
  {refs : List (Chunk (opts.Record .ref))} {objs : List (Chunk (opts.Record .obj))}

/-! ## Closing and opening -/

section Closing

variable {tree : List (Bytes × List UInt64)} {type : BlockType}

/-- The operations of `reftable_writer_close`. -/
theorem reftableWriterClose_eq_ok {fuel : Nat}
    (hok : reftableWriterClose zlib opts fuel w = .ok () w') :
    ∃ w₁, writerFinishPublicSection zlib opts fuel w = .ok () w₁ ∧ w₁.next ≠ 0 ∧
      w'.out = closedBytes zlib opts w₁ := by
  obtain ⟨u, w₁, hfinish, hfooter⟩ := EStateM_bind_eq_ok hok
  refine ⟨w₁, hfinish, ?_⟩
  unfold writeFooter at hfooter
  by_cases hempty : w₁.next = 0
  · grind
  rw [if_neg hempty, if_neg hempty] at hfooter
  obtain ⟨-, rfl⟩ := EStateM.Result.ok.inj hfooter
  refine ⟨hempty, ?_⟩
  change w₁.out ++ [] ++ _ = _
  rw [append_nil]
  rfl

/-- There are refs in a table that is not empty. -/
theorem TableWritten.refs_ne_nil (h : TableWritten opts hdr refs objs tree w) (hnext : w.next ≠ 0) :
    refs ≠ [] := by
  intro hnil
  obtain ⟨stop, hrefs, hobjs⟩ := h.refs_done
  subst hnil
  have hzero := hrefs.eq_of_nil
  rcases hobjs with ⟨-, -, hstop⟩ | ⟨-, -, hpos, -⟩ <;> omega

/-- A chunk at the start of a table. -/
theorem Chunk.Valid.out_eq {α : Type} {codec : RecordCodec α} {c : Chunk α}
    (hvalid : c.Valid opts hdr codec type) (hin : c.In w) (hoff : c.off = 0) :
    ∃ rest, w.out = hdr ++ type.byte :: rest := by
  have himage : c.image = hdr ++ type.byte :: (putBe24 c.bw.size ++ c.bw.payload) := by
    rw [Chunk.image, BlockWriter.image, hvalid.header_eq, if_pos hoff, hvalid.type_eq]
    simp only [append_assoc, cons_append]
  rw [Chunk.In, himage, hoff] at hin
  cases hin with
  | last start hout hoff hpending =>
    grind
  | inner start rest hout hoff hrest =>
    grind

/-- A table starts with its header and a block of refs. -/
theorem TableWritten.out_eq (h : TableWritten opts hdr refs objs tree w) (hne : refs ≠ []) :
    ∃ rest, w.out = writerWriteHeader opts w ++ BlockType.ref.byte :: rest := by
  obtain ⟨stop, hrefs, -⟩ := h.refs_done
  obtain ⟨c, cs, rfl⟩ := exists_cons_of_ne_nil hne
  have hoff : c.off = 0 := by
    rcases hrefs.index with ⟨-, hchain⟩ | ⟨mid, depth, top, hchain, -⟩
    · exact hchain.1
    · exact hchain.1
  rw [h.header_eq]
  exact (hrefs.valid c mem_cons_self).out_eq (hrefs.placed c mem_cons_self) hoff

/-- A chunk starts within the table. -/
theorem Chunk.In.off_lt {α : Type} {c : Chunk α} (hin : c.In w) : c.off < w.out.length := by
  have hpos := length_pos_iff.mpr c.image_ne_nil
  cases hin with
  | last start hout hoff hpending =>
    rw [hout, length_append]
    omega
  | inner start rest hout hoff hrest =>
    rw [hout, length_append, length_append]
    omega

section

variable {indexOffset base stop : Nat} {cs : List (Chunk (opts.Record type))}
  (h : SectionDone opts hdr type w indexOffset base cs stop)

include h

/-- A section starts within the table. -/
theorem SectionDone.base_lt (hne : cs ≠ []) : base < w.out.length := by
  obtain ⟨c, cs, rfl⟩ := exists_cons_of_ne_nil hne
  have hlt := (h.placed c mem_cons_self).off_lt
  rcases h.index with ⟨-, hchain⟩ | ⟨mid, depth, top, hchain, -⟩
  · rwa [hchain.1] at hlt
  · rwa [hchain.1] at hlt

/-- The index of a section starts within the table. -/
theorem SectionDone.indexOffset_lt : indexOffset ≤ w.out.length := by
  rcases h.index with ⟨hzero, -⟩ | ⟨mid, depth, top, -, -, hlevels, htop, hchain⟩
  · omega
  obtain ⟨c, top, rfl⟩ := exists_cons_of_ne_nil htop
  have hlt := (hlevels.indexChunks c mem_cons_self).2.off_lt
  rw [hchain.1] at hlt
  omega

end

section

variable (h : TableWritten opts hdr refs objs tree w)

include h

/-- **Opening a table** whose object ids have a length that fits into five bits. -/
theorem TableWritten.open (zlib : Zlib) (hne : refs ≠ [])
    (hsize : w.out.length < 2 ^ 32) (hlen : w.objectIdLen < 32) :
    ∃ t, reftableTableNew zlib (closedBytes zlib opts w) = .ok t ∧ Opened opts hdr w t ∧
      t.hashId = opts.hashId ∧ t.minUpdateIndex = w.minUpdateIndex ∧
      t.objectIdLen = w.objectIdLen ∧
      t.refOffsets = ⟨true, 0, (w.stats .ref).indexOffset⟩ ∧
      t.objOffsets = ⟨objs ≠ [], (w.stats .obj).offset,
        (UInt64.ofNat (w.stats .obj).indexOffset).toNat⟩ := by
  obtain ⟨rest, hout⟩ := h.out_eq hne
  obtain ⟨stop, hrefs, hobjs⟩ := h.refs_done
  have hindex := hrefs.indexOffset_lt
  have hoffset : (w.stats .obj).offset < 2 ^ 32 ∧
      (0 < (w.stats .obj).offset ↔ objs ≠ []) := by
    rcases hobjs with ⟨hnil, hzero, -⟩ | ⟨hobjs, hstop, hpos, hdone⟩
    · rw [hzero]
      exact ⟨by decide, by simp [hnil]⟩
    · have hlt := hdone.base_lt hobjs
      grind
  have hidLen : objs ≠ [] → w.objectIdLen ≠ 0 := by
    intro hobjs hzero
    by_cases hdump : opts.skipIndexObjects = false ∧ 0 < (w.stats .ref).indexOffset
    · have := (h.dumped hdump.1 hdump.2).1
      omega
    refine hobjs (h.not_dumped ?_).1
    grind
  obtain ⟨hfieldOff, hfieldLen⟩ := objField_of_lt hoffset.1 hlen
  have hcond : ¬ (0 < (objField w >>> 5).toNat ∧ (objField w &&& 0x1f).toNat = 0) := by grind
  refine ⟨_, (reftableTableNew_closedBytes w hout).trans (if_neg hcond), ?_, rfl, rfl, hfieldLen,
    ?_, ?_⟩
  · refine ⟨⟨_, rfl, ?_⟩, rfl, rfl, rfl, ?_, hsize⟩
    · exact ((((((writerWriteHeader_startsNonzero w).append _).append _).append _).append _).append
        _).append _
    · rw [← h.header_eq]
      exact length_writerWriteHeader w
  · have hrefIndex : (UInt64.ofNat (w.stats .ref).indexOffset).toNat = (w.stats .ref).indexOffset :=
      UInt64.toNat_ofNat_of_lt' (show _ < 2 ^ 64 by omega)
    simp only [footerFields, hrefIndex, decide_true]
  · simp only [footerFields, hfieldOff, hoffset.2]

/-- **A table that cannot be opened**, since the length of its object ids does not fit into five
bits. -/
theorem TableWritten.open_error (hne : refs ≠ [])
    (hoffset : (w.stats .obj).offset < 2 ^ 32) (hlen : w.objectIdLen = 32) :
    reftableTableNew zlib (closedBytes zlib opts w) = .error .format := by
  obtain ⟨rest, hout⟩ := h.out_eq hne
  exact (reftableTableNew_closedBytes w hout).trans (if_pos (objField_of_eq hoffset hlen))

/-- The refs end where the objects start, or with the table. -/
theorem TableWritten.refs_end :
    ∃ stop, SectionDone opts hdr .ref w (w.stats .ref).indexOffset 0 refs stop ∧
      EndsAt opts hdr w .ref stop ∧ EndsAt opts hdr w .index stop := by
  obtain ⟨stop, hrefs, hobjs⟩ := h.refs_done
  refine ⟨stop, hrefs, ?_⟩
  rcases hobjs with ⟨-, -, hstop⟩ | ⟨hobjs, -, -, hdone⟩
  · exact ⟨.inl hstop, .inl hstop⟩
  obtain ⟨c, cs, rfl⟩ := exists_cons_of_ne_nil hobjs
  have hoff : c.off = stop := by
    rcases hdone.index with ⟨-, hchain⟩ | ⟨mid, depth, top, hchain, -⟩
    · exact hchain.1
    · exact hchain.1
  have hvalid := hdone.valid c mem_cons_self
  have hin := hdone.placed c mem_cons_self
  exact ⟨.inr ⟨.obj, c, by decide, hoff, hvalid, hin⟩, .inr ⟨.obj, c, by decide, hoff, hvalid, hin⟩⟩

/-- **The refs of a table** are a section that its reader can seek in. -/
theorem TableWritten.refsAt (zlib : Zlib) (hne : refs ≠ []) {t : Table} (ht : Opened opts hdr w t)
    (hoffsets : t.refOffsets = ⟨true, 0, (w.stats .ref).indexOffset⟩)
    (hsorted : Run (opts.codec .ref).key (chunkRecords refs)) :
    SectionAt zlib t .ref (refs.map Chunk.block) := by
  obtain ⟨stop, hrefs, hend, hend'⟩ := h.refs_end
  refine hrefs.sectionAt (by decide) (by decide) h.next_eq ht hne hsorted ?_ ?_ hend hend'
  · change t.refOffsets.offset = 0
    rw [hoffsets]
  · change t.refOffsets.indexOffset = _
    rw [hoffsets]

/-- The objects start within the table. -/
theorem TableWritten.objOffset_le : (w.stats .obj).offset ≤ w.out.length := by
  obtain ⟨stop, -, hobjs⟩ := h.refs_done
  rcases hobjs with ⟨-, hzero, -⟩ | ⟨hobjs, hstop, -, hdone⟩
  · omega
  · have hlt := hdone.base_lt hobjs
    omega

end

end Closing

/-! ## The length of abbreviated ids -/

/-- The number of blocks in the section under way. -/
def Writer.sectionBlocks (w : Writer) : Nat :=
  w.index.length + if w.blockWriter.any (fun bw => bw.entries ≠ 0) then 1 else 0

/-- Two different ids agree in all bytes that an abbreviation may have. -/
def IdsCollide {hashSize : Nat} (refs : List (RefRecord hashSize)) : Prop :=
  ∃ ref ∈ refs, ∃ ref' ∈ refs, ∃ hash ∈ ref.hashes, ∃ hash' ∈ ref'.hashes,
    hash ≠ hash' ∧ hash.take 31 = hash'.take 31

section RoundTrip

variable {min : UInt64} {accepted : List (RefRecord opts.hashId.size)}
  {cs : List (Chunk (opts.Record .ref))}
  {rs : List (opts.Record .ref)}

theorem length_of_mem_hashes {hashSize : Nat} {ref : RefRecord hashSize} {hash : Bytes}
    (h : hash ∈ ref.hashes) : hash.length = hashSize := by
  unfold RefRecord.hashes at h
  cases hvalue : ref.value with
  | deletion | symref => rw [hvalue] at h; cases h
  | val1 value =>
    grind
  | val2 value targetValue =>
    grind

/-- The number of chunks of a section once it is finished. -/
theorem Writing.sectionBlocks_eq {stats : BlockType → BlockStats} {type : BlockType} {base : Nat}
    {cs cs' : List (Chunk (opts.Record type))} {rs : List (opts.Record type)}
    (h : Writing opts hdr stats type base cs rs w) (hclosed : Closed cs rs w.next cs') :
    w.sectionBlocks = cs'.length := by
  obtain ⟨bw, es, hbw, -, -, -, hes, hholds⟩ := h.current
  have hentries : bw.entries = rs.length := by rw [hholds.entries, ← hes, length_map]
  rw [Writer.sectionBlocks, h.index_eq, length_map, hbw, Option.any_some, hentries]
  rcases hclosed with ⟨rfl, rfl⟩ | ⟨hne, c, -, rfl⟩
  · rfl
  grind

section

variable (h : AddingRefs opts hdr min accepted cs rs w)

include h

/-- The ids of the objects, in order. -/
theorem AddingRefs.keys_sorted : (w.objIndexTree.map Prod.fst).Pairwise (· < ·) :=
  pairwise_map.mpr h.tree_sorted

/-- The abbreviated ids are short unless two ids agree in their first 31 bytes. -/
theorem AddingRefs.maxCommonPrefix_lt
    (hskip : opts.skipIndexObjects = false) (hids : ¬ IdsCollide accepted) :
    maxCommonPrefix 1 (w.objIndexTree.map Prod.fst) + 1 < 32 := by
  have hle : maxCommonPrefix 1 (w.objIndexTree.map Prod.fst) ≤ 30 := by
    refine maxCommonPrefix_le (by decide) (h.keys_sorted.imp_of_mem ?_)
    intro hash hash' hmem hmem' hlt
    obtain ⟨ref, href, hhash⟩ := (h.mem_tree hskip hash).mp hmem
    obtain ⟨ref', href', hhash'⟩ := (h.mem_tree hskip hash').mp hmem'
    refine Nat.le_of_lt_succ (commonPrefixSize_lt fun heq => hids ?_)
    exact ⟨ref, href, ref', href', hash, hhash, hash', hhash', hlt.ne, heq.symm⟩
  omega

/-- The length of the abbreviated ids is 32 when two ids agree in their first 31 bytes. -/
theorem AddingRefs.maxCommonPrefix_eq
    (hskip : opts.skipIndexObjects = false) (hids : IdsCollide accepted) :
    maxCommonPrefix 1 (w.objIndexTree.map Prod.fst) + 1 = 32 := by
  obtain ⟨ref, href, ref', href', hash, hhash, hash', hhash', hne, heq⟩ := hids
  have hmem := (h.mem_tree hskip hash).mpr ⟨ref, href, hhash⟩
  have hmem' := (h.mem_tree hskip hash').mpr ⟨ref', href', hhash'⟩
  have hlength : ∀ key ∈ w.objIndexTree.map Prod.fst, key.length = opts.hashId.size := by
    intro key hkey
    obtain ⟨ref, -, hin⟩ := (h.mem_tree hskip key).mp hkey
    exact length_of_mem_hashes hin
  -- with SHA-1 the first 31 bytes are all
  have hsize : opts.hashId.size = 32 := by
    cases hid : opts.hashId with
    | sha256 => rfl
    | sha1 =>
      have hshort : opts.hashId.size ≤ 31 := by rw [hid]; decide
      rw [take_of_length_le (by rw [hlength hash hmem]; exact hshort),
        take_of_length_le (by rw [hlength hash' hmem']; exact hshort)] at heq
      exact absurd heq hne
  rw [hsize] at hlength
  have hle : maxCommonPrefix 1 (w.objIndexTree.map Prod.fst) ≤ 31 := by
    refine maxCommonPrefix_le (by decide) (h.keys_sorted.imp_of_mem ?_)
    intro key key' hkey hkey' hlt
    refine Nat.le_of_lt_succ (commonPrefixSize_lt ?_)
    grind
  have hge : 31 ≤ maxCommonPrefix 1 (w.objIndexTree.map Prod.fst) := by
    have hlen : ∀ key ∈ w.objIndexTree.map Prod.fst, 31 ≤ key.length := by
      intro key hkey
      rw [hlength key hkey]
      decide
    rcases lt_or_gt_of_ne hne with hlt | hlt
    · exact le_maxCommonPrefix_of_take_eq h.keys_sorted hlen hmem hmem' hlt heq
    · exact le_maxCommonPrefix_of_take_eq h.keys_sorted hlen hmem' hmem hlt heq.symm
  omega

end

/-! ## Writing and reading a table of refs -/

/-- Every way to seek leads to these refs: `table_iter_seek`, a linear seek from the start of the
refs, and an indexed seek if there is an index. A positive return value of a seek counts as the
end. -/
structure SeeksRefs (zlib : Zlib) (t : Table) {hashSize : Nat} (want : Bytes)
    (refs : List (RefRecord hashSize)) : Prop where
  seek : ∃ result, tableIterSeek zlib t hashSize .ref want = .ok result ∧
    SeeksTo (tableIterNext zlib t hashSize .ref) result refs
  linear : ∃ ti ti', tableIterSeekStart zlib t .ref false = .ok (some ti) ∧
    tableIterSeekLinear zlib t hashSize .ref want ti = .ok ti' ∧
    Drains (tableIterNext zlib t hashSize .ref) ti' refs
  indexed : t.refOffsets.indexOffset ≠ 0 → ∃ ti result,
    tableIterSeekStart zlib t .ref true = .ok (some ti) ∧
    tableIterSeekIndexed zlib t hashSize .ref want ti = .ok result ∧
    SeeksTo (tableIterNext zlib t hashSize .ref) result refs

/-- The table can be read: it opens, has refs, and all seeks lead to the refs that were written. -/
def ReadsRefs (zlib : Zlib) (source : Bytes) (hashId : HashId)
    (refs : List (RefRecord hashId.size)) : Prop :=
  ∃ t, reftableTableNew zlib source = .ok t ∧ t.hashId = hashId ∧ t.refOffsets.isPresent = true ∧
    ∀ want, SeeksRefs zlib t want (refs.filter fun ref => want ≤ ref.refname.val)

variable {max : UInt64}

/-- The refs that a reader finds are those that were written, with their update indexes restored. -/
theorem restore_filter (t : Table) (accepted : List (RefRecord opts.hashId.size)) (want : Bytes) :
    ((accepted.map (RefRecord.relative t.minUpdateIndex)).filter fun r =>
        want ≤ (opts.codec .ref).key r).map
      (@Table.restore opts.hashId.size t .ref) =
      accepted.filter fun ref => want ≤ ref.refname.val := by
  rw [filter_map, map_map]
  have hid : (fun ref : RefRecord opts.hashId.size => t.restore .ref (ref.relative t.minUpdateIndex)) =
      id := funext fun ref => ref.rebased_relative t.minUpdateIndex
  exact (congrArg (fun f => List.map f _) hid).trans (map_id _)

/-- A section of refs can be read in every way. -/
theorem SectionAt.seeksRefs {t : Table} {data : List (Nat × List (opts.Record .ref))}
    (h : SectionAt zlib t .ref data) (hsize : t.size < 2 ^ 64)
    (hrecords : blockRecords data = accepted.map (RefRecord.relative t.minUpdateIndex))
    (want : Bytes) : SeeksRefs zlib t want (accepted.filter fun ref => want ≤ ref.refname.val) := by
  have hrefs := restore_filter t accepted want
  rw [← hrecords] at hrefs
  rw [← hrefs]
  exact ⟨h.seek hsize (by decide) want, h.seekLinear want,
    fun hindex => h.seekIndexed hsize (by decide) hindex want⟩

/-- The table that is written when the writer is closed. -/
theorem AddingRefs.close (h : AddingRefs opts hdr min accepted cs rs w) {fuel : Nat}
    (hclose : reftableWriterClose zlib opts fuel w = .ok () w') :
    ∃ refs objs w₁, Closed cs rs w.next refs ∧ TableWritten opts hdr refs objs w.objIndexTree w₁ ∧
      refs ≠ [] ∧ w₁.minUpdateIndex = min ∧ w'.out = closedBytes zlib opts w₁ := by
  obtain ⟨w₁, hfinish, hnext, hout⟩ := reftableWriterClose_eq_ok hclose
  have hobj : w.stats .obj = ⟨0, 0, 0, 0⟩ := by
    rw [h.writing.stats_eq, sectionStats, Function.update_of_ne (by decide)]
  obtain ⟨refs, objs, hclosed, htable, hmin⟩ := h.writing.finishPublic hobj h.objectIdLen hfinish
  exact ⟨refs, objs, w₁, hclosed, htable, htable.refs_ne_nil hnext, hmin.trans h.minUpdateIndex, hout⟩

end RoundTrip

/-! ## Small tables -/

/-- Options with blocks that have room for one ref. -/
def smallBlocks (hashId : HashId) : WriterOptions where
  unpadded := true
  blockSize := 80
  skipIndexObjects := false
  restartInterval := 16
  hashId := hashId
  exactLogMessage := false
  blockSize_lt := by decide
  headers_le := by cases hashId <;> decide
  restartInterval_pos := by decide

/-- A ref with a name of one letter and a hash that starts with zeros. -/
def smallRef (hashId : HashId) (name last : UInt8) (hname : 0 ∉ [name]) : RefRecord hashId.size where
  refname := ⟨[name], hname⟩
  updateIndex := 1
  value := .val1 ⟨List.replicate (hashId.size - 1) 0 ++ [last], by cases hashId <;> rfl⟩

/-- The refs `a` and `b`, with hashes that differ in their last byte. -/
def smallRefs (hashId : HashId) : List (RefRecord hashId.size) :=
  [smallRef hashId 0x61 1 (by decide), smallRef hashId 0x62 2 (by decide)]

/-- The writer of a table with these refs. -/
def smallWriter (hashId : HashId) : Writer × List (RefRecord hashId.size) :=
  addRefs noZlib (smallBlocks hashId)
    { reftableWriterNew (smallBlocks hashId) with minUpdateIndex := 1, maxUpdateIndex := 1 }
    (smallRefs hashId)

theorem smallRefs_sorted (hashId : HashId) : Run (fun ref => ref.refname.val) (smallRefs hashId) := by
  unfold Run
  cases hashId <;> decide

/-- An operation that succeeds, with what can be checked of the writer then. -/
theorem exists_eq_ok (r : EStateM.Result ReftableError Writer Unit) (p : Writer → Bool)
    (h : (match r with | .ok _ w => p w | .error _ _ => false) = true) :
    ∃ w, r = .ok () w ∧ p w = true := by
  cases r with
  | ok u w => exact ⟨w, rfl, h⟩
  | error e w => cases h

end GitCore.Reftable
