import GitCore.Reftable.TableLayout

/-! # The footer of a table

A footer leads a reader to the sections of a table. It has five bits for the length of the abbreviated
object ids, so that the length 32 is not read back: it becomes a part of the offset of the objects,
and the length is zero. -/

namespace GitCore.Reftable

open List

/-! ## Opening a table -/

section Opening

variable (zlib : Zlib) (opts : WriterOptions)

/-- The field of the footer with the offset of the objects and the length of their ids. -/
def objField (w : Writer) : UInt64 :=
  UInt64.ofNat (w.stats .obj).offset <<< 5 ||| UInt64.ofNat w.objectIdLen

/-- What is written when a table is closed. -/
def closedBytes (w : Writer) : Bytes :=
  w.out ++ (footerData opts w ++ putBe32 (zlib.crc32 (footerData opts w)).toNat)

/-- The fields of the footer. -/
def footerFields (w : Writer) : FooterFields where
  minUpdateIndex := w.minUpdateIndex
  maxUpdateIndex := w.maxUpdateIndex
  hashId := opts.hashId
  refIndexOffset := UInt64.ofNat (w.stats .ref).indexOffset
  objOffset := objField w
  objIndexOffset := UInt64.ofNat (w.stats .obj).indexOffset
  logOffset := UInt64.ofNat (w.stats .log).offset
  logIndexOffset := UInt64.ofNat (w.stats .log).indexOffset

variable {zlib opts}

theorem footerField_putBe64 (v : UInt64) (rest : Bytes) :
    footerField (putBe64 v ++ rest) = .ok (v, rest) := by
  rw [footerField, getBe64_putBe64]
  rfl

/-- The start of a header. -/
theorem writerWriteHeader_eq (w : Writer) : ∃ rest,
    writerWriteHeader opts w = magic ++ (UInt8.ofNat opts.hashId.version ::
      (putBe24 opts.blockSize ++ (putBe64 w.minUpdateIndex ++ (putBe64 w.maxUpdateIndex ++ rest)))) ∧
    ∀ input, parseHashId opts.hashId.version (rest ++ input) = .ok (opts.hashId, input) := by
  refine ⟨if opts.hashId.version = 2 then putBe32 opts.hashId.formatId else [], ?_, ?_⟩
  · simp only [writerWriteHeader, magic, append_assoc, cons_append, nil_append]
  intro input
  cases opts.hashId with
  | sha1 => rfl
  | sha256 =>
    have hid : getBe32 (putBe32 (HashId.formatId .sha256) ++ input) =
        some (HashId.formatId .sha256) := getBe32_putBe32 (by decide) input
    simp only [HashId.version, if_true, parseHashId, hid]
    rfl

/-- `parse_footer` on the footer that a writer has written. -/
theorem parseFooter_footerData (w : Writer) {source header : Bytes} (size : Nat)
    (hheader : header.take (headerSize opts.hashId.version) = writerWriteHeader opts w) :
    parseFooter zlib source size opts.hashId.version
        (footerData opts w ++ putBe32 (zlib.crc32 (footerData opts w)).toNat) header =
      (footerFields opts w).table source size opts.hashId.version opts.blockSize
        header[headerSize opts.hashId.version]? := by
  obtain ⟨rest, hrest, hparse⟩ : ∃ rest, writerWriteHeader opts w = _ ∧ _ := writerWriteHeader_eq w
  generalize hcrc : putBe32 (zlib.crc32 (footerData opts w)).toNat = crc
  have hcrc' : getBe32 crc = some (zlib.crc32 (footerData opts w)).toNat := by
    rw [← hcrc, ← append_nil (putBe32 _)]
    exact getBe32_putBe32 (UInt32.toNat_lt _) []
  -- the footer field by field
  obtain ⟨tail, htail⟩ : ∃ tail, tail = putBe64 (UInt64.ofNat (w.stats .ref).indexOffset) ++
      (putBe64 (objField w) ++ (putBe64 (UInt64.ofNat (w.stats .obj).indexOffset) ++
        (putBe64 (UInt64.ofNat (w.stats .log).offset) ++
          (putBe64 (UInt64.ofNat (w.stats .log).indexOffset) ++ crc)))) := ⟨_, rfl⟩
  have hfields : footerData opts w ++ crc = writerWriteHeader opts w ++ tail := by
    simp only [htail, footerData, objField, append_assoc]
  have hmagic : (footerData opts w ++ crc).take 4 = magic := by
    rfl
  have htake : (footerData opts w ++ crc).take (headerSize opts.hashId.version) =
      writerWriteHeader opts w := by
    rw [hfields, ← length_writerWriteHeader w, take_left]
  have hblockSize : getBe24 ((footerData opts w ++ crc).drop 5) = some opts.blockSize := by
    exact getBe24_putBe24 opts.blockSize_lt _
  have hparsed : parseFields opts.hashId.version ((footerData opts w ++ crc).drop 8) =
      .ok (footerFields opts w, crc) := by
    have hdrop : (footerData opts w ++ crc).drop 8 =
        putBe64 w.minUpdateIndex ++ (putBe64 w.maxUpdateIndex ++ (rest ++ tail)) := by
      rw [hfields, hrest]
      rfl
    rw [hdrop, htail]
    simp only [parseFields, footerField_putBe64, hparse, bind, Except.bind, pure, Except.pure,
      footerFields]
  have hcheck : (footerData opts w ++ crc).take ((footerData opts w ++ crc).length - crc.length) =
      footerData opts w := by
    rw [length_append, Nat.add_sub_cancel, take_left]
  unfold parseFooter
  rw [if_neg (not_not.mpr hmagic), if_neg (not_not.mpr (htake.trans hheader.symm)), hblockSize,
    hparsed]
  dsimp only [Option.getD_some]
  rw [hcheck, hcrc', if_neg (not_not.mpr rfl)]

theorem length_footer (w : Writer) (crc : Nat) :
    (footerData opts w ++ putBe32 crc).length = footerSize opts.hashId.version := by
  rw [footerData]
  simp only [length_append, length_writerWriteHeader, length_putBe64, length_putBe32]
  cases opts.hashId <;> rfl

/-- **Opening a closed table.** -/
theorem reftableTableNew_closedBytes (w : Writer) {first : UInt8} {rest : Bytes}
    (hout : w.out = writerWriteHeader opts w ++ first :: rest) :
    reftableTableNew zlib (closedBytes zlib opts w) =
      (footerFields opts w).table (closedBytes zlib opts w) w.out.length opts.hashId.version
        opts.blockSize (some first) := by
  generalize hfooter : footerData opts w ++ putBe32 (zlib.crc32 (footerData opts w)).toNat = footer
  have hclosed : closedBytes zlib opts w = w.out ++ footer := by rw [closedBytes, hfooter]
  have hlenFooter : footer.length = footerSize opts.hashId.version := by
    rw [← hfooter, length_footer]
  have hlenHeader : (writerWriteHeader opts w).length = headerSize opts.hashId.version :=
    length_writerWriteHeader w
  have hlenOut : w.out.length = headerSize opts.hashId.version + 1 + rest.length := by
    rw [hout, length_append, hlenHeader, length_cons]
    omega
  have hsizes : headerSize opts.hashId.version ≤ headerSize 2 ∧
      headerSize 2 + 1 ≤ headerSize opts.hashId.version + footerSize opts.hashId.version := by
    cases opts.hashId <;> decide
  have hlen : (closedBytes zlib opts w).length =
      w.out.length + footerSize opts.hashId.version := by
    rw [hclosed, length_append, hlenFooter]
  -- the start of the file is the header, followed by the type of the first block
  have hprefix : closedBytes zlib opts w = writerWriteHeader opts w ++ first :: (rest ++ footer) := by
    grind
  have hheader : ((closedBytes zlib opts w).take (headerSize 2 + 1)).take
      (headerSize opts.hashId.version) = writerWriteHeader opts w := by
    rw [take_take, Nat.min_eq_left (by omega), hprefix, ← hlenHeader, take_left]
  have hfirst : ((closedBytes zlib opts w).take (headerSize 2 + 1))[headerSize opts.hashId.version]? =
      some first := by
    rw [getElem?_take_of_lt (by omega), hprefix, getElem?_append_right hlenHeader.le,
      hlenHeader, Nat.sub_self]
    rfl
  obtain ⟨rest', hrest, -⟩ : ∃ rest, writerWriteHeader opts w = _ ∧ _ := writerWriteHeader_eq w
  have hmagic : ((closedBytes zlib opts w).take (headerSize 2 + 1)).take 4 = magic := by
    rw [take_take, Nat.min_eq_left (by decide), hprefix, hrest]
    rfl
  have hversion : ((((closedBytes zlib opts w).take (headerSize 2 + 1))[4]?).map UInt8.toNat).getD 0 =
      opts.hashId.version := by
    rw [getElem?_take_of_lt (by decide), hprefix, hrest]
    cases opts.hashId <;> rfl
  unfold reftableTableNew
  dsimp only
  rw [if_neg (by omega), if_neg (not_not.mpr hmagic), hversion, if_neg, if_neg (by omega), hlen,
    Nat.add_sub_cancel, ← hfirst]
  · have hdrop : (closedBytes zlib opts w).drop w.out.length = footer := by
      rw [hclosed, drop_left]
    rw [hdrop, ← hfooter]
    exact parseFooter_footerData w w.out.length hheader
  · cases opts.hashId <;> decide

end Opening

/-! ## The object section in the footer -/

section Footer

variable {w : Writer}

theorem toNat_objField (hoff : (w.stats .obj).offset < 2 ^ 32) (hlen : w.objectIdLen < 2 ^ 32) :
    (objField w).toNat = (w.stats .obj).offset * 32 ||| w.objectIdLen := by
  rw [objField, UInt64.toNat_or, UInt64.toNat_shiftLeft,
    UInt64.toNat_ofNat_of_lt' (show (w.stats .obj).offset < 2 ^ 64 by omega),
    UInt64.toNat_ofNat_of_lt' (show w.objectIdLen < 2 ^ 64 by omega)]
  simp only [UInt64.reduceToNat, Nat.reduceMod, Nat.shiftLeft_eq]
  rw [Nat.mod_eq_of_lt (by omega)]

theorem objField_and (v : UInt64) : (v &&& 0x1f).toNat = v.toNat % 32 := by
  rw [UInt64.toNat_and, show (0x1f : UInt64).toNat = 2 ^ 5 - 1 from rfl,
    Nat.and_two_pow_sub_one_eq_mod]

theorem objField_shiftRight (v : UInt64) : (v >>> 5).toNat = v.toNat / 32 := by
  rw [UInt64.toNat_shiftRight]
  simp only [UInt64.reduceToNat, Nat.reduceMod, Nat.shiftRight_eq_div_pow]

/-- An id length that fits into five bits is read back. -/
theorem objField_of_lt (hoff : (w.stats .obj).offset < 2 ^ 32) (hlen : w.objectIdLen < 32) :
    (objField w >>> 5).toNat = (w.stats .obj).offset ∧
      (objField w &&& 0x1f).toNat = w.objectIdLen := by
  have hor : (w.stats .obj).offset * 32 ||| w.objectIdLen =
      (w.stats .obj).offset * 32 + w.objectIdLen := by
    rw [show (w.stats .obj).offset * 32 = (w.stats .obj).offset <<< 5 from by rw [Nat.shiftLeft_eq],
      ← Nat.shiftLeft_add_eq_or_of_lt hlen]
  rw [objField_and, objField_shiftRight, toNat_objField hoff (by omega), hor]
  omega

/-- The length 32 becomes a part of the offset. -/
theorem objField_of_eq (hoff : (w.stats .obj).offset < 2 ^ 32) (hlen : w.objectIdLen = 32) :
    0 < (objField w >>> 5).toNat ∧ (objField w &&& 0x1f).toNat = 0 := by
  have hle : 32 ≤ (w.stats .obj).offset * 32 ||| 32 := Nat.right_le_or
  have hmod : ((w.stats .obj).offset * 32 ||| 32) % 2 ^ 5 = 0 := by
    rw [Nat.or_mod_two_pow, Nat.mul_mod_left]
    rfl
  rw [objField_and, objField_shiftRight, toNat_objField hoff (by omega), hlen]
  omega

end Footer

end GitCore.Reftable
