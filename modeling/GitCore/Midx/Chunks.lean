import GitCore.Lib.SideTable
import GitCore.Midx.Entries
import GitCore.Reftable.Basics

/-! # The chunks of a multi-pack index

The fan-out, lookup, offset and large-offset chunks, as they are written for the entries of an index
and read again. No pack is dropped, and there is no base index. -/

namespace GitCore.Midx

open List
open Notes (HashAlgo Oid)
open Reftable (Bytes putBe32 putBe64 getBe32 getBe64 getBe32_putBe32)

variable {algo : HashAlgo}

/-! ## Writing -/

/-- `ctx->info` after it has been sorted by `pack_info_compare`: the packs by name, with the numbers
they had before. -/
def sortedInfo (packs : List (Pack algo)) : List (Pack algo × Nat) :=
  packs.zipIdx.insertionSort fun a b => a.1.name ≤ b.1.name

/-- `ctx->pack_perm` -/
def packPerm (packs : List (Pack algo)) (origPackIntId : UInt32) : UInt32 :=
  UInt32.ofNat ((sortedInfo packs).findIdx fun info => UInt32.ofNat info.2 == origPackIntId)

/-- `PACK_EXPIRED` -/
def packExpired : UInt32 := 0xffffffff

/-- `MIDX_LARGE_OFFSET_NEEDED` -/
def midxLargeOffsetNeeded : UInt32 := 0x80000000

/-- The offset does not fit in 31 bits. -/
def large (e : PackMidxEntry algo) : Bool := decide (e.offset >>> 31 ≠ 0)

/-- `ctx->large_offsets_needed` -/
def largeOffsetsNeeded (entries : List (PackMidxEntry algo)) : Bool :=
  entries.any fun e => decide (0xffffffff < e.offset)

/-- `ctx->num_large_offsets` -/
def numLargeOffsets (entries : List (PackMidxEntry algo)) : Nat :=
  entries.countP fun e => decide (0x7fffffff < e.offset)

/-- The loop of `write_midx_oid_fanout`, for `n` more bytes from `i` on. -/
def writeOidFanoutLoop : Nat → Nat → List (PackMidxEntry algo) → Nat → Bytes
  | 0, _, _, _ => []
  | n + 1, i, list, count =>
    let next := list.takeWhile fun e => decide (firstByte e.oid = i)
    putBe32 (count + next.length) ++
      writeOidFanoutLoop n (i + 1) (list.drop next.length) (count + next.length)

/-- `write_midx_oid_fanout` -/
def writeMidxOidFanout (entries : List (PackMidxEntry algo)) : Bytes :=
  writeOidFanoutLoop 256 0 entries 0

/-- `write_midx_oid_lookup` -/
def writeMidxOidLookup : List (PackMidxEntry algo) → Option Bytes
  | [] => some []
  | [obj] => some obj.oid.1
  | obj :: next :: list =>
    if oidcmp obj.oid next.oid ≥ 0 then none
    else (writeMidxOidLookup (next :: list)).map (obj.oid.1 ++ ·)

/-- `write_midx_object_offsets` -/
def writeMidxObjectOffsets (packPerm : UInt32 → UInt32) (largeOffsetsNeeded : Bool) :
    List (PackMidxEntry algo) → UInt32 → Option Bytes
  | [], _ => some []
  | obj :: list, nrLargeOffset =>
    if packPerm obj.packIntId = packExpired then none
    else if largeOffsetsNeeded && large obj then
      (writeMidxObjectOffsets packPerm largeOffsetsNeeded list (nrLargeOffset + 1)).map fun rest =>
        putBe32 (packPerm obj.packIntId).toNat ++
          (putBe32 (midxLargeOffsetNeeded ||| nrLargeOffset).toNat ++ rest)
    else if !largeOffsetsNeeded ∧ obj.offset >>> 32 ≠ 0 then none
    else
      (writeMidxObjectOffsets packPerm largeOffsetsNeeded list nrLargeOffset).map fun rest =>
        putBe32 (packPerm obj.packIntId).toNat ++ (putBe32 obj.offset.toUInt32.toNat ++ rest)

/-- `write_midx_large_offsets` -/
def writeMidxLargeOffsets : List (PackMidxEntry algo) → Nat → Option Bytes
  | _, 0 => some []
  | [], _ + 1 => none
  | obj :: list, nrLargeOffset + 1 =>
    if large obj then
      (writeMidxLargeOffsets list nrLargeOffset).map (putBe64 obj.offset ++ ·)
    else writeMidxLargeOffsets list (nrLargeOffset + 1)

/-- The chunks that are looked at here. -/
structure Chunks where
  oidFanout : Bytes
  oidLookup : Bytes
  objectOffsets : Bytes
  largeOffsets : Option Bytes

/-- The part of `write_midx_internal` that writes the chunks; `none` where a loop that counts with
`uint32_t` never ends. -/
def writeChunks (packs : List (Pack algo)) (entries : List (PackMidxEntry algo)) : Option Chunks :=
  if entries.length < 2 ^ 32 then
    match writeMidxOidLookup entries,
        writeMidxObjectOffsets (packPerm packs) (largeOffsetsNeeded entries) entries 0 with
    | some lookup, some offsets =>
      if largeOffsetsNeeded entries then
        (writeMidxLargeOffsets entries (numLargeOffsets entries)).map fun large =>
          ⟨writeMidxOidFanout entries, lookup, offsets, some large⟩
      else some ⟨writeMidxOidFanout entries, lookup, offsets, none⟩
    | _, _ => none
  else none

/-! ## Reading -/

/-- `struct multi_pack_index` -/
structure MultiPackIndex where
  chunks : Chunks
  numObjects : Nat

/-- An entry of `chunk_oid_fanout`. -/
def fanoutAt (chunks : Chunks) (i : Nat) : Option Nat := getBe32 (chunks.oidFanout.drop (4 * i))

/-- `midx_read_oid_fanout`, `midx_read_oid_lookup` and `midx_read_object_offsets` -/
def readChunks (algo : HashAlgo) (chunks : Chunks) : Option MultiPackIndex :=
  if chunks.oidFanout.length ≠ 4 * 256 then none
  else if ∀ i < 255, (fanoutAt chunks i).getD 0 ≤ (fanoutAt chunks (i + 1)).getD 0 then
    match fanoutAt chunks 255 with
    | none => none
    | some numObjects =>
      if chunks.oidLookup.length ≠ algo.rawsz * numObjects then none
      else if chunks.objectOffsets.length ≠ numObjects * 8 then none
      else some ⟨chunks, numObjects⟩
  else none

/-- The id at a position of the lookup chunk. -/
def lookupAt (algo : HashAlgo) (chunks : Chunks) (i : Nat) : Bytes :=
  (chunks.oidLookup.drop (algo.rawsz * i)).take algo.rawsz

/-- `hashcmp` -/
def hashcmp (a b : Bytes) : Ordering := if a < b then .lt else if b < a then .gt else .eq

/-- `bsearch_hash` in the fan-out and lookup chunks: the position of the id, or the one it would
have. -/
def bsearchHash (m : MultiPackIndex) (oid : Oid algo) : Option (Nat ⊕ Nat) :=
  match fanoutAt m.chunks (firstByte oid),
      if firstByte oid = 0 then some 0 else fanoutAt m.chunks (firstByte oid - 1) with
  | some hi, some lo =>
    some (binarySearchLoop (fun mi => hashcmp oid.1 (lookupAt algo m.chunks mi)) (hi - lo) lo hi)
  | _, _ => none

/-- `bsearch_midx`: the position of the id. -/
def bsearchMidx (m : MultiPackIndex) (oid : Oid algo) : Option Nat :=
  (bsearchHash m oid).bind Sum.getLeft?

/-- `nth_midxed_offset` -/
def nthMidxedOffset (m : MultiPackIndex) (pos : Nat) : Option UInt64 :=
  if pos ≥ m.numObjects then none
  else
    match getBe32 (m.chunks.objectOffsets.drop (8 * pos + 4)) with
    | none => none
    | some word =>
      let offset32 := UInt32.ofNat word
      match m.chunks.largeOffsets with
      | some largeOffsets =>
        if offset32 &&& midxLargeOffsetNeeded ≠ 0 then
          let index := (offset32 ^^^ midxLargeOffsetNeeded).toNat
          if index ≥ largeOffsets.length / 8 then none
          else getBe64 (largeOffsets.drop (8 * index))
        else some offset32.toUInt64
      | none => some offset32.toUInt64

/-- `nth_midxed_pack_int_id` -/
def nthMidxedPackIntId (m : MultiPackIndex) (pos : Nat) : Option Nat :=
  if pos ≥ m.numObjects then none else getBe32 (m.chunks.objectOffsets.drop (8 * pos))

/-! ## Offsets -/

theorem large_iff {e : PackMidxEntry algo} : large e = true ↔ 2 ^ 31 ≤ e.offset.toNat := by
  rw [large, decide_eq_true_eq, ne_eq, ← UInt64.toNat_inj, UInt64.toNat_shiftRight]
  change ¬ e.offset.toNat >>> 31 = 0 ↔ _
  omega

theorem shiftRight_32_ne_zero_iff {offset : UInt64} :
    offset >>> 32 ≠ 0 ↔ 2 ^ 32 ≤ offset.toNat := by
  rw [ne_eq, ← UInt64.toNat_inj, UInt64.toNat_shiftRight]
  change ¬ offset.toNat >>> 32 = 0 ↔ _
  omega

theorem largeOffsetsNeeded_iff {entries : List (PackMidxEntry algo)} :
    largeOffsetsNeeded entries = true ↔ ∃ e ∈ entries, 2 ^ 32 ≤ e.offset.toNat := by
  rw [largeOffsetsNeeded, any_eq_true]
  refine exists_congr fun e => and_congr_right fun _ => ?_
  rw [decide_eq_true_eq, UInt64.lt_iff_toNat_lt]
  exact Nat.lt_iff_add_one_le

/-- The two tests for a large offset are the same. -/
theorem numLargeOffsets_eq (entries : List (PackMidxEntry algo)) :
    numLargeOffsets entries = entries.countP large := by
  refine countP_congr fun e _ => ?_
  rw [large_iff, decide_eq_true_eq, UInt64.lt_iff_toNat_lt]
  exact Nat.lt_iff_add_one_le

/-! ## Reading what was written -/

variable {entries list : List (PackMidxEntry algo)}

/-- The number of entries up to a first byte. -/
def countUpTo (entries : List (PackMidxEntry algo)) (v : Nat) : Nat :=
  entries.countP fun e => decide (firstByte e.oid ≤ v)

theorem writeOidFanoutLoop_eq_flatMap (n i : Nat) (list : List (PackMidxEntry algo)) (count : Nat) :
    writeOidFanoutLoop n i list count =
      (fanoutLoop (fun e => firstByte e.oid) n i list count).flatMap putBe32 := by
  induction n generalizing i list count with
  | zero => rfl
  | succ n ih => rw [writeOidFanoutLoop, fanoutLoop, flatMap_cons, ih]

section

variable (hentries : entries.Pairwise fun e e' => e.oid < e'.oid)

include hentries

/-- The loop of the fan-out chunk writes the counts. -/
theorem writeMidxOidFanout_eq :
    writeMidxOidFanout entries =
      (List.range' 0 256).flatMap fun v => putBe32 (countUpTo entries v) := by
  rw [writeMidxOidFanout, writeOidFanoutLoop_eq_flatMap,
    fanoutLoop_eq (pairwise_bucket firstByte_mono hentries)
      fun e _ => Nat.zero_le _, flatMap_map]
  refine flatMap_congr fun v _ => ?_
  rw [Nat.zero_add, countUpTo, bucketCount]

/-- **The fan-out chunk** has the counts. -/
theorem getBe32_writeMidxOidFanout (hlength : entries.length < 2 ^ 32) {v : Nat} (hv : v < 256) :
    getBe32 ((writeMidxOidFanout entries).drop (4 * v)) = some (countUpTo entries v) := by
  have hcount : countUpTo entries v ≤ entries.length := countP_le_length
  rw [writeMidxOidFanout_eq hentries,
    drop_flatMap (fun v _ => Reftable.length_putBe32 _) (getElem?_range' hv), Nat.zero_add,
    Nat.one_mul, getBe32_putBe32 (by omega)]

theorem length_writeMidxOidFanout : (writeMidxOidFanout entries).length = 4 * 256 := by
  rw [writeMidxOidFanout_eq hentries, length_flatMap_of_width fun v _ => Reftable.length_putBe32 _,
    length_range']

/-- **The lookup chunk** has the ids. -/
theorem writeMidxOidLookup_eq :
    writeMidxOidLookup entries = some (entries.flatMap fun e => e.oid.1) := by
  induction entries with
  | nil => rfl
  | cons obj list ih =>
    obtain ⟨hobj, hlist⟩ := pairwise_cons.mp hentries
    cases list with
    | nil => simp [writeMidxOidLookup]
    | cons next list =>
      have hlt := hobj next mem_cons_self
      rw [writeMidxOidLookup, if_neg (by rw [oidcmp, if_pos hlt]; decide), ih hlist]
      rfl

end

/-- A word of the offset chunk: the index of a large offset, or the offset. -/
def offsetWord (largeOffsetsNeeded : Bool) (nrLargeOffset : Nat) (e : PackMidxEntry algo) : UInt32 :=
  if largeOffsetsNeeded && large e then midxLargeOffsetNeeded ||| UInt32.ofNat nrLargeOffset
  else e.offset.toUInt32

/-- The record of an entry in the offset chunk. -/
def offsetRecord (perm : UInt32 → UInt32) (needed : Bool) (n : Nat) (e : PackMidxEntry algo) : Bytes :=
  putBe32 (perm e.packIntId).toNat ++ putBe32 (offsetWord needed n e).toNat

/-- **The offset chunk** has the pack and a word for every entry. -/
theorem writeMidxObjectOffsets_spec {perm : UInt32 → UInt32} {needed : Bool} {n : Nat}
    (hperm : ∀ e ∈ list, perm e.packIntId ≠ packExpired)
    (hneeded : needed = false → ∀ e ∈ list, e.offset.toNat < 2 ^ 32) :
    ∃ bytes, writeMidxObjectOffsets perm needed list (UInt32.ofNat n) = some bytes ∧
      bytes.length = list.length * 8 ∧
      ∀ pos e, list[pos]? = some e → ∃ rest, bytes.drop (8 * pos) =
        putBe32 (perm e.packIntId).toNat ++ (putBe32 (offsetWord needed
          (n + (list.take pos).countP fun e => needed && large e) e).toNat ++ rest) := by
  have hwidth : ∀ n, ∀ e ∈ list, (offsetRecord perm needed n e).length = 8 := fun _ _ _ => rfl
  refine ⟨numberedFlatMap (fun e => needed && large e) (offsetRecord perm needed) n list, ?_, ?_,
    fun pos e he => ?_⟩
  · induction list generalizing n with
    | nil => rfl
    | cons obj list ih =>
      have hfits : ¬ ((!needed) = true ∧ obj.offset >>> 32 ≠ 0) := by
        rintro ⟨hn, hshift⟩
        have := hneeded (by simpa using hn) obj mem_cons_self
        rw [shiftRight_32_ne_zero_iff] at hshift
        omega
      -- the counter goes up by one for a large offset
      have hrest := @ih (n + if needed && large obj then 1 else 0)
        (forall_mem_cons.mp hperm).2
        (fun hn e he => hneeded hn e (mem_cons_of_mem _ he)) fun _ _ _ => rfl
      rw [writeMidxObjectOffsets, if_neg (hperm obj mem_cons_self), numberedFlatMap,
        offsetRecord, offsetWord]
      split_ifs at hrest ⊢ with hlarge
      · rw [UInt32.ofNat_add] at hrest
        grind
      grind
  · rw [length_numberedFlatMap hwidth, Nat.mul_comm]
  · obtain ⟨rest, hrest⟩ := drop_numberedFlatMap hwidth n he
    exact ⟨rest, by rw [hrest, offsetRecord, append_assoc]⟩

/-- **The large-offset chunk** has the large offsets. -/
theorem writeMidxLargeOffsets_eq (list : List (PackMidxEntry algo)) :
    writeMidxLargeOffsets list (list.countP large) =
      some ((list.filter large).flatMap fun e => putBe64 e.offset) :=
  eq_flatMap_filter (fun l => by rw [writeMidxLargeOffsets]) (fun _ _ _ => rfl) list

/-! ## Packs -/

/-- **A pack number that is written** names the pack. -/
theorem sortedInfo_packPerm {packs : List (Pack algo)} (hlength : packs.length < 2 ^ 32) {i : Nat}
    {p : Pack algo} (hp : packs[i]? = some p) :
    (sortedInfo packs)[(packPerm packs (UInt32.ofNat i)).toNat]? = some (p, i) ∧
      packPerm packs (UInt32.ofNat i) ≠ packExpired := by
  have hmem : ∀ {q j}, (q, j) ∈ sortedInfo packs ↔ packs[j]? = some q := by
    intro q j
    rw [sortedInfo, mem_insertionSort, mk_mem_zipIdx_iff_getElem?]
  have hlen : (sortedInfo packs).length = packs.length := by
    rw [sortedInfo, length_insertionSort, length_zipIdx]
  have hfound : (sortedInfo packs).findIdx (fun info => UInt32.ofNat info.2 == UInt32.ofNat i) <
      (sortedInfo packs).length :=
    findIdx_lt_length_of_exists ⟨(p, i), hmem.mpr hp, by simp⟩
  have htest : ∀ info, (sortedInfo packs)[(sortedInfo packs).findIdx fun info =>
      UInt32.ofNat info.2 == UInt32.ofNat i]? = some info → UInt32.ofNat info.2 = UInt32.ofNat i := by
    grind
  obtain ⟨⟨q, j⟩, hinfo⟩ : ∃ info, (sortedInfo packs)[(sortedInfo packs).findIdx fun info =>
      UInt32.ofNat info.2 == UInt32.ofNat i]? = some info := ⟨_, getElem?_eq_getElem hfound⟩
  -- the numbers below 2^32 are different as 32-bit words
  have hq : packs[j]? = some q := hmem.mp (mem_of_getElem? hinfo)
  obtain rfl : j = i := by
    rw [← toNat_ofNat_pack hlength.le hq, ← toNat_ofNat_pack hlength.le hp, htest _ hinfo]
  obtain rfl : p = q := Option.some.inj (hp.symm.trans hq)
  have hword : (packPerm packs (UInt32.ofNat j)).toNat =
      (sortedInfo packs).findIdx fun info => UInt32.ofNat info.2 == UInt32.ofNat j :=
    UInt32.toNat_ofNat_of_lt' (show _ < 2 ^ 32 by omega)
  refine ⟨by rw [hword, hinfo], fun hexpired => ?_⟩
  rw [hexpired] at hword
  have : packExpired.toNat = 2 ^ 32 - 1 := rfl
  omega

end GitCore.Midx
