import GitCore.Midx.Chunks

/-! # Lookup in a multi-pack index

What is read from the chunks of an index is what the packs have. -/

namespace GitCore.Midx

open List
open Notes (HashAlgo Oid)
open Reftable (putBe32 putBe64 getBe32 getBe32_putBe32 getBe64_putBe64)

variable {algo : HashAlgo} {packs : List (Pack algo)} {entries : List (PackMidxEntry algo)}
  {chunks : Chunks}

/-! ## The chunks of an index -/

/-- What the chunks of an index contain. -/
structure Written (packs : List (Pack algo)) (entries : List (PackMidxEntry algo)) (chunks : Chunks) :
    Prop where
  fanout_length : chunks.oidFanout.length = 4 * 256
  fanout : ∀ v < 256, fanoutAt chunks v = some (countUpTo entries v)
  lookup : chunks.oidLookup = entries.flatMap fun e => e.oid.1
  offsets_length : chunks.objectOffsets.length = entries.length * 8
  offsets : ∀ pos e, entries[pos]? = some e → ∃ rest, chunks.objectOffsets.drop (8 * pos) =
    putBe32 (packPerm packs e.packIntId).toNat ++ (putBe32 (offsetWord (largeOffsetsNeeded entries)
      ((entries.take pos).countP fun e => largeOffsetsNeeded entries && large e) e).toNat ++ rest)
  largeOffsets : chunks.largeOffsets = if largeOffsetsNeeded entries then
    some ((entries.filter large).flatMap fun e => putBe64 e.offset) else none

/-- **Writing** the entries does not fail. -/
theorem exists_written (hentries : entries.Pairwise fun e e' => e.oid < e'.oid)
    (hlength : entries.length < 2 ^ 32)
    (hperm : ∀ e ∈ entries, packPerm packs e.packIntId ≠ packExpired) :
    ∃ chunks, writeChunks packs entries = some chunks ∧ Written packs entries chunks := by
  have hneeded : largeOffsetsNeeded entries = false → ∀ e ∈ entries, e.offset.toNat < 2 ^ 32 := by
    intro hno e he
    by_contra hge
    rw [largeOffsetsNeeded_iff.mpr ⟨e, he, Nat.le_of_not_lt hge⟩] at hno
    cases hno
  obtain ⟨offsets, hoffsets, hlen, hread⟩ := writeMidxObjectOffsets_spec (n := 0) hperm hneeded
  simp only [Nat.zero_add] at hread
  have hzero : (0 : UInt32) = UInt32.ofNat 0 := rfl
  refine ⟨⟨writeMidxOidFanout entries, entries.flatMap fun e => e.oid.1, offsets,
    if largeOffsetsNeeded entries then
      some ((entries.filter large).flatMap fun e => putBe64 e.offset) else none⟩, ?_, ?_⟩
  · rw [writeChunks, if_pos hlength, writeMidxOidLookup_eq hentries, hzero, hoffsets]
    dsimp only
    by_cases hneeded : largeOffsetsNeeded entries = true
    · rw [if_pos hneeded, if_pos hneeded, numLargeOffsets_eq, writeMidxLargeOffsets_eq, Option.map_some]
    · rw [if_neg hneeded, if_neg hneeded]
  · constructor
    · exact length_writeMidxOidFanout hentries
    · exact fun v hv => getBe32_writeMidxOidFanout hentries hlength hv
    · rfl
    · exact hlen
    · exact hread
    · rfl

/-! ## Reading -/

/-- **The written chunks** are accepted. -/
theorem readChunks_eq (h : Written packs entries chunks) :
    readChunks algo chunks = some ⟨chunks, entries.length⟩ := by
  have hmono : ∀ i < 255, (fanoutAt chunks i).getD 0 ≤ (fanoutAt chunks (i + 1)).getD 0 := by
    intro i hi
    rw [h.fanout i (by omega), h.fanout (i + 1) (by omega)]
    exact bucketCount_mono (Nat.le_succ i)
  have hlookup : chunks.oidLookup.length = algo.rawsz * entries.length := by
    rw [h.lookup, length_flatMap_of_width fun e _ => e.oid.2]
  rw [readChunks, if_neg (not_not.mpr h.fanout_length), if_pos hmono, h.fanout 255 (by omega),
    show countUpTo entries 255 = entries.length from
      bucketCount_eq_length fun e _ => Nat.le_of_lt_succ (firstByte_lt e.oid)]
  dsimp only
  rw [if_neg (not_not.mpr hlookup), if_neg (not_not.mpr h.offsets_length)]

variable {e : PackMidxEntry algo} {pos : Nat}

theorem hashcmp_iff (a b : Oid algo) :
    (hashcmp a.1 b.1 = .lt ↔ a < b) ∧ (hashcmp a.1 b.1 = .gt ↔ b < a) ∧
      (hashcmp a.1 b.1 = .eq ↔ a = b) := by
  rw [hashcmp, threeWay_eq_cmp, Subtype.ext_iff]
  exact ⟨cmp_eq_lt_iff a.1 b.1, cmp_eq_gt_iff a.1 b.1, cmp_eq_eq_iff a.1 b.1⟩

theorem comparesWith_lookupAt (h : Written packs entries chunks) (oid : Oid algo) :
    ComparesWith oid PackMidxEntry.oid entries
      (fun mi => hashcmp oid.1 (lookupAt algo chunks mi)) := by
  intro i e he
  dsimp only
  rw [lookupAt, h.lookup, drop_flatMap (fun e _ => e.oid.2) he, take_left' e.oid.2]
  exact ⟨(hashcmp_iff _ _).1, (hashcmp_iff _ _).2.1⟩

/-- **The search** finds the entry of an id, if there is one. -/
theorem bsearchMidx_iff (h : Written packs entries chunks)
    (hentries : entries.Pairwise fun e e' => e.oid < e'.oid) (oid : Oid algo) (pos : Nat) :
    bsearchMidx ⟨chunks, entries.length⟩ oid = some pos ↔
      ∃ e, entries[pos]? = some e ∧ e.oid = oid := by
  have hbyte := firstByte_lt oid
  rw [← fanout_search (comparesWith_lookupAt h oid) firstByte_mono hentries rfl rfl,
    bsearchMidx, bsearchHash, h.fanout _ hbyte, fanout_start h.fanout hbyte]
  change Sum.getLeft? _ = some pos ↔ _
  rw [Sum.getLeft?_eq_some_iff]
  exact Iff.rfl

/-- An offset of 32 bits survives. -/
theorem toUInt64_toUInt32 {offset : UInt64} (h : offset.toNat < 2 ^ 32) :
    offset.toUInt32.toUInt64 = offset := by
  apply UInt64.toNat_inj.mp
  exact Nat.mod_eq_of_lt h

/-- **The pack** of an entry. -/
theorem nthMidxedPackIntId_eq (h : Written packs entries chunks)
    (he : entries[pos]? = some e) :
    nthMidxedPackIntId ⟨chunks, entries.length⟩ pos = some (packPerm packs e.packIntId).toNat := by
  obtain ⟨hpos, -⟩ := List.getElem?_eq_some_iff.mp he
  obtain ⟨rest, hrest⟩ := h.offsets pos e he
  rw [nthMidxedPackIntId, if_neg (Nat.not_le.mpr hpos), hrest,
    getBe32_putBe32 (packPerm packs e.packIntId).toNat_lt]

/-- **The offset** of an entry, whether it is large or not. -/
theorem nthMidxedOffset_eq (h : Written packs entries chunks)
    (hlarge : largeOffsetsNeeded entries = true → entries.countP large ≤ 2 ^ 31)
    (he : entries[pos]? = some e) :
    nthMidxedOffset ⟨chunks, entries.length⟩ pos = some e.offset := by
  obtain ⟨hpos, -⟩ := List.getElem?_eq_some_iff.mp he
  obtain ⟨rest, hrest⟩ := h.offsets pos e he
  have hword : getBe32 (chunks.objectOffsets.drop (8 * pos + 4)) =
      some (offsetWord (largeOffsetsNeeded entries)
        ((entries.take pos).countP fun e => largeOffsetsNeeded entries && large e) e).toNat := by
    rw [← drop_drop, hrest, drop_left' (Reftable.length_putBe32 _),
      getBe32_putBe32 (offsetWord _ _ e).toNat_lt]
  rw [nthMidxedOffset, if_neg (Nat.not_le.mpr hpos), hword, h.largeOffsets]
  dsimp only
  rw [UInt32.ofNat_toNat]
  cases hneeded : largeOffsetsNeeded entries with
  | false =>
    -- there is no chunk for large offsets, and 32 bits hold the offset
    have hfits : e.offset.toNat < 2 ^ 32 := by
      by_contra hge
      rw [largeOffsetsNeeded_iff.mpr ⟨e, mem_of_getElem? he, Nat.le_of_not_lt hge⟩] at hneeded
      cases hneeded
    exact congrArg some (toUInt64_toUInt32 hfits)
  | true =>
    simp only [Bool.true_and, if_true]
    cases hl : large e with
    | false =>
      have hsmall : e.offset.toNat < 2 ^ 31 := by
        by_contra hge
        rw [large_iff.mpr (Nat.le_of_not_lt hge)] at hl
        cases hl
      have hword : e.offset.toUInt32.toNat < 2 ^ 31 := by
        rw [UInt64.toNat_toUInt32]
        omega
      rw [offsetWord, hl, Bool.and_false, if_neg Bool.false_ne_true,
        if_neg (not_not.mpr (and_flag_eq_zero (show midxLargeOffsetNeeded.toNat = _ from rfl) hword)),
        toUInt64_toUInt32 (by omega)]
    | true =>
      -- the index is the number of large offsets before
      have hlarge := hlarge hneeded
      have hindex := getElem?_filter_countP_take he hl
      obtain ⟨hlt, -⟩ := List.getElem?_eq_some_iff.mp hindex
      rw [← List.countP_eq_length_filter] at hlt
      have hnat : (UInt32.ofNat ((entries.take pos).countP large)).toNat =
          (entries.take pos).countP large := UInt32.toNat_ofNat_of_lt' (show _ < 2 ^ 32 by omega)
      obtain ⟨hflag, hxor⟩ := @and_xor_flag midxLargeOffsetNeeded
        (UInt32.ofNat ((entries.take pos).countP large)) rfl (by rw [hnat]; omega)
      have hlength : ((entries.filter large).flatMap fun e => putBe64 e.offset).length =
          8 * entries.countP large := by
        rw [length_flatMap_of_width fun e _ => Reftable.length_putBe64 _, countP_eq_length_filter]
      rw [offsetWord, hl, Bool.and_true, if_pos rfl, if_pos hflag, hxor, hnat, hlength,
        if_neg (by omega), drop_flatMap (fun e _ => Reftable.length_putBe64 _) hindex, getBe64_putBe64]

/-! ## Limits -/

/-- **What the code can count**: no pack far behind ties with the chosen one, packs, the copies with
one first byte and objects have 32 bits, and the indices of large offsets 31 bits, if there is a
chunk for them. The last two are about the entries that an exact index has. -/
structure WithinLimits (packs : List (Pack algo)) (preferredPackIdx : UInt32) : Prop where
  tiesNear : TiesNear packs preferredPackIdx
  packs_lt : packs.length < 2 ^ 32
  copies_lt : ∀ v < 256, (allEntries packs preferredPackIdx).countP
    (fun e => decide (firstByte e.oid = v)) < 2 ^ 32
  objects_lt : ∀ entries, Exact packs preferredPackIdx entries → entries.length < 2 ^ 32
  large_le : ∀ entries, Exact packs preferredPackIdx entries → largeOffsetsNeeded entries = true →
    entries.countP large ≤ 2 ^ 31

variable {preferredPackIdx : UInt32}

/-- Within the limits no loop is endless. -/
theorem exists_computeSortedEntries (h : WithinLimits packs preferredPackIdx) :
    ∃ entries, computeSortedEntries packs preferredPackIdx = some entries := by
  refine ⟨_, if_pos ⟨h.packs_lt, fun v hv => ?_⟩⟩
  rw [gatherSlice_eq_filter packs preferredPackIdx hv, ← countP_eq_length_filter]
  exact h.copies_lt v hv

/-! ## The index as a whole -/

/-- **Lookup is exact**: the entries are, and the written chunks give them back. The number of a
pack that is read is its place among the packs by name. -/
def LookupExact (packs : List (Pack algo)) (preferredPackIdx : UInt32) : Prop :=
  ∃ entries, computeSortedEntries packs preferredPackIdx = some entries ∧
    Exact packs preferredPackIdx entries ∧
    ∃ chunks m, writeChunks packs entries = some chunks ∧ readChunks algo chunks = some m ∧
      (∀ (oid : Oid algo) (pos : Nat), bsearchMidx m oid = some pos ↔
        ∃ e, entries[pos]? = some e ∧ e.oid = oid) ∧
      ∀ pos e, entries[pos]? = some e → nthMidxedOffset m pos = some e.offset ∧
        ∃ id i p, nthMidxedPackIntId m pos = some id ∧ (sortedInfo packs)[id]? = some (p, i) ∧
          Chosen packs preferredPackIdx e.oid i p ∧ (e.oid, e.offset) ∈ p.objects

/-- A pack with one object, the null id. -/
def holder (offset : UInt64) (h : offset.toNat < 2 ^ 63) : Pack .sha1 where
  name := []
  mtime := 0
  objects := [(Notes.nullOid .sha1, offset)]
  fanout := fun _ => 1
  sorted := pairwise_singleton _ _
  fanout_eq := fun v _ => (countP_singleton.trans (if_pos (decide_eq_true (Nat.zero_le v)))).symm
  offset_lt := fun o ho => by
    rw [mem_singleton.mp ho]
    exact h

/-- A pack without objects. -/
def emptyPack : Pack .sha1 where
  name := []
  mtime := 0
  objects := []
  fanout := fun _ => 0
  sorted := .nil
  fanout_eq := fun _ _ => rfl
  offset_lt := by simp

theorem offset_small : (12 : UInt64).toNat < 2 ^ 63 := by decide

theorem offset_large : (0x100000000 : UInt64).toNat < 2 ^ 63 := by decide

/-- Two packs with the same object and time; the second has an offset of more than 32 bits. -/
def holders : List (Pack .sha1) := [holder 12 offset_small, holder 0x100000000 offset_large]

theorem length_entries_holders {entries : List (PackMidxEntry .sha1)}
    (h : Exact holders 1 entries) : entries.length ≤ 1 := by
  have hoid : ∀ e ∈ entries, e.oid = Notes.nullOid .sha1 := by
    intro e he
    obtain ⟨i, p, hchosen, -, hobject⟩ := h.chosen e he
    have hp := mem_of_getElem? hchosen.pack
    simp only [holders, mem_cons, not_mem_nil, or_false] at hp
    rcases hp with rfl | rfl <;> exact congrArg Prod.fst (mem_singleton.mp hobject)
  by_contra hlength
  have hlt := pairwise_iff_getElem.mp h.ascending 0 1 (by omega) (by omega) Nat.zero_lt_one
  grind

/-- Two packs with the same object and time, and `n` packs between them. -/
def tiedPacks (n : Nat) : List (Pack .sha1) :=
  holder 12 offset_small :: (List.replicate n emptyPack ++ [holder 12 offset_small])

variable {n : Nat} {p : Pack .sha1}

theorem mtime_tiedPacks (hp : p ∈ tiedPacks n) : p.mtime = 0 := by
  rcases mem_cons.mp hp with rfl | hp
  · rfl
  rcases mem_append.mp hp with hp | hp
  · rw [eq_of_mem_replicate hp]
    rfl
  · rw [mem_singleton.mp hp]
    rfl

/-- The entry of the object in a pack. -/
def tiedEntry (i : Nat) : PackMidxEntry .sha1 := ⟨Notes.nullOid .sha1, UInt32.ofNat i, 0, 12, false⟩

theorem allEntries_tiedPacks (hn : n < 2 ^ 32 - 2) :
    allEntries (tiedPacks n) noPreferredPack = [tiedEntry 0, tiedEntry (n + 1)] := by
  have hentries : ∀ i < 2 ^ 32 - 1, packEntries noPreferredPack (holder 12 offset_small, i) =
      [tiedEntry i] := by
    intro i hi
    have hne : (UInt32.ofNat i == noPreferredPack) = false := by
      rw [beq_eq_false_iff_ne, ne_eq, ← UInt32.toNat_inj,
        UInt32.toNat_ofNat_of_lt' (show i < 2 ^ 32 by omega)]
      change ¬ i = 2 ^ 32 - 1
      omega
    simp only [packEntries, hne]
    rfl
  have hmiddle : (List.zipIdx (List.replicate n emptyPack) (0 + 1)).flatMap
      (packEntries noPreferredPack) = [] := by
    refine flatMap_eq_nil_iff.mpr fun info hinfo => ?_
    rw [packEntries, eq_of_mem_replicate (fst_mem_of_mem_zipIdx hinfo)]
    rfl
  rw [allEntries, tiedPacks, zipIdx_cons, flatMap_cons, zipIdx_append,
    flatMap_append, hmiddle, length_replicate, nil_append, zipIdx_cons,
    zipIdx_nil, flatMap_cons, flatMap_nil, hentries 0 (by omega),
    hentries _ (by omega), Nat.zero_add, Nat.add_comm 1 n]
  rfl

theorem mem_entries_tiedPacks (hn : n = 2 ^ 31) {entries : List (PackMidxEntry .sha1)}
    (hcompute : computeSortedEntries (tiedPacks n) noPreferredPack = some entries) :
    tiedEntry (n + 1) ∈ entries := by
  have hslice : gatherSlice (tiedPacks n) noPreferredPack 0 = [tiedEntry 0, tiedEntry (n + 1)] := by
    rw [gatherSlice_eq_filter _ _ (by omega), allEntries_tiedPacks (by omega)]
    rfl
  have hkept : keptSlice (tiedPacks n) noPreferredPack 0 = [tiedEntry (n + 1)] := by
    rw [keptSlice, hslice, hn]
    decide
  unfold computeSortedEntries at hcompute
  grind

theorem not_chosen_tiedPacks (hn : n < 2 ^ 32 - 2) :
    ¬ Chosen (tiedPacks n) noPreferredPack (Notes.nullOid .sha1) (n + 1) p := by
  intro hchosen
  rcases hchosen.best with hbest | ⟨-, hbest⟩
  · change n + 1 = 2 ^ 32 - 1 at hbest
    omega
  rcases hbest 0 (holder 12 offset_small) rfl ⟨12, mem_singleton_self _⟩ with hlt | ⟨-, hle⟩
  · rw [mtime_tiedPacks (mem_of_getElem? hchosen.pack)] at hlt
    exact absurd hlt (lt_irrefl 0)
  · omega

theorem not_lookupExact_tiedPacks (hn : n = 2 ^ 31) :
    ¬ LookupExact (tiedPacks n) noPreferredPack := by
  rintro ⟨entries, hcompute, hexact, -⟩
  obtain ⟨i, p, hchosen, hid, -⟩ := hexact.chosen _ (mem_entries_tiedPacks hn hcompute)
  have hlength : (tiedPacks n).length = n + 2 := by
    simp only [tiedPacks, length_cons, length_append, length_replicate, length_nil]
  have hlast : i = n + 1 := by
    rw [← toNat_ofNat_pack (by omega) hchosen.pack, ← hid]
    exact UInt32.toNat_ofNat_of_lt' (show n + 1 < 2 ^ 32 by omega)
  rw [hlast] at hchosen
  exact not_chosen_tiedPacks (by omega) hchosen

end GitCore.Midx
