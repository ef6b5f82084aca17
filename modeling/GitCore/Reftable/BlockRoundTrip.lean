import GitCore.Lib.Stream
import GitCore.Reftable.Block

/-! # Reading back a block

A block is described by its entries: each record with the length of the prefix its key shares with
the one before it and with the encoding of its value. The writer keeps such a description, and a
reader at any entry goes on correctly as long as its last key agrees with the key at that entry on
the shared prefix (`Entry.Follows`). This is what the seek relies on when it steps back and leaves
the key ahead in `last_key`. -/

namespace GitCore.Reftable

open Nat List

variable {α : Type} {start blockSize headerOff restartInterval : Nat}

/-! ## Entries -/

/-- A record as it is stored in a block. -/
structure Entry (α : Type) where
  /-- The record. -/
  record : α
  /-- How much of its key is not stored. -/
  prefixLen : Nat
  /-- The encoding of the rest of the record. -/
  value : Bytes

variable {e : Entry α} {last : Bytes} {es : List (Entry α)}

section Entries

variable (codec : RecordCodec α)

/-- The key of the record. -/
def Entry.key (e : Entry α) : Bytes := codec.key e.record

/-- The bytes of an entry. -/
def Entry.bytes (e : Entry α) : Bytes :=
  varInt (UInt64.ofNat e.prefixLen) ++
    (varInt (suffixField ((e.key codec).length - e.prefixLen) (codec.valType e.record)) ++
      ((e.key codec).drop e.prefixLen ++ e.value))

/-- An entry that can be read back. -/
structure Entry.WF (e : Entry α) : Prop where
  key_ne_nil : e.key codec ≠ []
  key_lt : (e.key codec).length < 2 ^ 32
  prefix_le : e.prefixLen ≤ (e.key codec).length
  valType_lt : (codec.valType e.record).toNat < 8
  decode : ∀ rest,
    codec.decode (e.key codec) (codec.valType e.record) (e.value ++ rest) = .ok (e.record, rest)

/-- The entry can be read after the key `last`. -/
def Entry.Follows (last : Bytes) (e : Entry α) : Prop :=
  e.prefixLen ≤ last.length ∧ last.take e.prefixLen = (e.key codec).take e.prefixLen

/-- Each entry can be read after the one before it, and the first one after the key `last`. -/
def Linked : Bytes → List (Entry α) → Prop
  | _, [] => True
  | last, e :: es => e.Follows codec last ∧ Linked (e.key codec) es

/-- The bytes of some entries. -/
def entriesBytes (es : List (Entry α)) : Bytes := es.flatMap (Entry.bytes codec)

/-- The key of the last entry, `last` when there is none. -/
def lastEntryKey : Bytes → List (Entry α) → Bytes
  | last, [] => last
  | _, e :: es => lastEntryKey (e.key codec) es

variable {codec}

@[simp] theorem entriesBytes_nil : entriesBytes codec ([] : List (Entry α)) = [] := rfl

@[simp] theorem entriesBytes_cons (e : Entry α) (es : List (Entry α)) :
    entriesBytes codec (e :: es) = e.bytes codec ++ entriesBytes codec es := rfl

@[simp] theorem entriesBytes_append (es es' : List (Entry α)) :
    entriesBytes codec (es ++ es') = entriesBytes codec es ++ entriesBytes codec es' :=
  flatMap_append

/-- An entry takes at least a byte. -/
theorem Entry.bytes_ne_nil (e : Entry α) : e.bytes codec ≠ [] := by
  intro h
  exact varInt_ne_nil _ (append_eq_nil_iff.mp h).1

theorem linked_append (h : Linked codec last es)
    (he : e.Follows codec (lastEntryKey codec last es)) : Linked codec last (es ++ [e]) := by
  induction es generalizing last with
  | nil => exact ⟨he, trivial⟩
  | cons e' es ih =>
    exact ⟨h.1, ih h.2 he⟩

theorem lastEntryKey_append (last : Bytes) (es : List (Entry α)) (e : Entry α) :
    lastEntryKey codec last (es ++ [e]) = e.key codec := by
  induction es generalizing last with
  | nil => rfl
  | cons e' es ih => exact ih _

/-- What comes after the first `k` entries. -/
theorem linked_drop (h : Linked codec last es) {k : Nat}
    {rest : List (Entry α)} (hk : es.drop k = e :: rest) : Linked codec (e.key codec) rest := by
  induction k generalizing last es with
  | zero =>
    rw [drop_zero] at hk
    rw [hk] at h
    exact h.2
  | succ k ih =>
    cases es with
    | nil => cases hk
    | cons e' es => exact ih h.2 hk

/-! ## Reading an entry -/

variable {extra : UInt8} {n prefixLen : Nat} {key : Bytes}

section

variable (hn : n < 2 ^ 32) (hextra : extra.toNat < 8)

include hn hextra

theorem toNat_suffixField : (suffixField n extra).toNat = n * 8 + extra.toNat := by
  rw [suffixField, UInt64.toNat_or, UInt64.toNat_shiftLeft,
    UInt64.toNat_ofNat_of_lt' (show n < 2 ^ 64 by omega)]
  simp only [UInt64.reduceToNat, Nat.reduceMod, UInt8.toNat_toUInt64, shiftLeft_eq]
  rw [mod_eq_of_lt (by omega), ← shiftLeft_eq, ← shiftLeft_add_eq_or_of_lt hextra, shiftLeft_eq]

theorem suffixField_shiftRight : (suffixField n extra >>> 3).toNat = n := by
  rw [UInt64.toNat_shiftRight, toNat_suffixField hn hextra]
  simp only [UInt64.reduceToNat, Nat.reduceMod, shiftRight_eq_div_pow]
  omega

theorem suffixField_and : (suffixField n extra &&& 0x7).toUInt8 = extra := by
  apply UInt8.toNat_inj.mp
  rw [UInt64.toNat_toUInt8, UInt64.toNat_and, show (0x7 : UInt64).toNat = 2 ^ 3 - 1 from rfl,
    and_two_pow_sub_one_eq_mod, toNat_suffixField hn hextra]
  omega

end

/-- The lengths that stand before the suffix of a key. -/
theorem decodeKeylen_key (hlt : key.length < 2 ^ 32)
    (hshared : prefixLen ≤ key.length) (hextra : extra.toNat < 8) (rest : Bytes) :
    decodeKeylen (varInt (UInt64.ofNat prefixLen) ++
        (varInt (suffixField (key.length - prefixLen) extra) ++ rest)) =
      some (prefixLen, key.length - prefixLen, extra, rest) := by
  have hsuffix : key.length - prefixLen < 2 ^ 32 := by omega
  simp only [decodeKeylen, getVarInt_varInt, Option.bind_eq_bind, Option.bind_some]
  rw [suffixField_shiftRight hsuffix hextra, suffixField_and hsuffix hextra,
    UInt64.toNat_ofNat_of_lt' (show prefixLen < 2 ^ 64 by omega)]

/-- A key is restored from its suffix and a key that agrees with it on the prefix. -/
theorem decodeKey_key (hlt : key.length < 2 ^ 32)
    (hshared : prefixLen ≤ key.length) (hextra : extra.toNat < 8) (hle : prefixLen ≤ last.length)
    (htake : last.take prefixLen = key.take prefixLen) (rest : Bytes) :
    decodeKey last (varInt (UInt64.ofNat prefixLen) ++
        (varInt (suffixField (key.length - prefixLen) extra) ++ (key.drop prefixLen ++ rest))) =
      some (key, extra, rest) := by
  have hsuffix : (key.drop prefixLen).length = key.length - prefixLen := length_drop
  simp only [decodeKey, decodeKeylen_key hlt hshared hextra, Option.bind_eq_bind, Option.bind_some]
  rw [if_neg (by rw [length_append, hsuffix]; omega), htake, ← hsuffix, take_left,
    drop_left, take_append_drop]

/-- The lengths that stand at the start of an entry. -/
theorem decodeKeylen_bytes (h : e.WF codec) (rest : Bytes) :
    decodeKeylen (e.bytes codec ++ rest) = some (e.prefixLen, (e.key codec).length - e.prefixLen,
      codec.valType e.record, (e.key codec).drop e.prefixLen ++ (e.value ++ rest)) := by
  simp only [Entry.bytes, append_assoc]
  exact decodeKeylen_key h.key_lt h.prefix_le h.valType_lt _

/-- The key is restored from the last key and the bytes. -/
theorem decodeKey_bytes (h : e.WF codec) (hlast : e.Follows codec last) (rest : Bytes) :
    decodeKey last (e.bytes codec ++ rest) =
      some (e.key codec, codec.valType e.record, e.value ++ rest) := by
  simp only [Entry.bytes, append_assoc]
  exact decodeKey_key h.key_lt h.prefix_le h.valType_lt hlast.1 hlast.2 _

end Entries

/-! ## Iterating -/

variable {codec : RecordCodec α}

section Blocks

variable {block : Block}

/-- The bytes further on. -/
theorem Block.view_add (block : Block) (off n : Nat) :
    block.view (off + n) = (block.view off).drop n := by
  rw [Block.view, Block.view, drop_take, drop_drop, sub_add_eq]

variable {off : Nat} {rest : Bytes}

/-- The bytes behind some that are known. -/
theorem Block.view_of_append {bytes : Bytes} (h : block.view off = bytes ++ rest) :
    block.view (off + bytes.length) = rest := by
  rw [block.view_add, h, drop_left]

/-- Entries are before the restart points. -/
theorem Block.lt_restartOff (hview : block.view off = e.bytes codec ++ rest) :
    off < block.restartOff := by
  by_contra hle
  rw [Block.view, Nat.sub_eq_zero_of_le (Nat.not_lt.mp hle), take_zero] at hview
  exact e.bytes_ne_nil (append_eq_nil_iff.mp hview.symm).1

theorem Block.restartOff_le (h : block.view off = [])
    (hdata : block.restartOff ≤ block.data.length) : block.restartOff ≤ off := by
  by_contra hlt
  have hlen := congrArg List.length h
  rw [Block.view, length_take, length_drop, length_nil] at hlen
  omega

/-- Reading one entry. -/
theorem blockIterNext_entry (h : e.WF codec) (hlast : e.Follows codec last)
    (hview : block.view off = e.bytes codec ++ rest) :
    blockIterNext codec block ⟨last, off⟩ =
      .ok (some (e.record, ⟨e.key codec, off + (e.bytes codec).length⟩)) := by
  unfold blockIterNext
  rw [if_neg (not_le.mpr (Block.lt_restartOff hview))]
  dsimp only
  rw [hview, decodeKey_bytes h hlast]
  dsimp only
  rw [if_neg h.key_ne_nil, h.decode]
  dsimp only
  rw [length_append, Nat.add_sub_cancel]

section

variable (hwf : ∀ e ∈ es, e.WF codec) (hlinked : Linked codec last es)
  (hview : block.view off = entriesBytes codec es) (hdata : block.restartOff ≤ block.data.length)

include hwf hlinked hview hdata

/-- Reading on from an entry hands out all records behind. -/
theorem produces_entries :
    Produces (blockIterNext codec block) ⟨last, off⟩ (es.map Entry.record) := by
  induction es generalizing last off with
  | nil =>
    rw [map_nil, Produces, blockIterNext, if_pos (Block.restartOff_le hview hdata)]
  | cons e es ih =>
    refine ⟨_, blockIterNext_entry (hwf e mem_cons_self) hlinked.1 hview, ?_⟩
    exact ih (forall_mem_cons.mp hwf).2 hlinked.2 (Block.view_of_append hview)

/-- The scan of a seek stops at the first key that is not below the wanted one. There the last key
is that very key, after which the entry can be read as well. -/
theorem seekKeyLoop_entries (want : Bytes) {fuel : Nat} (hfuel : es.length < fuel) :
    ∃ it, seekKeyLoop codec block want fuel ⟨last, off⟩ = .ok it ∧
      Produces (blockIterNext codec block) it
        ((Overlay.dropBelow (Entry.key codec) want es).map Entry.record) := by
  induction es generalizing last off fuel with
  | nil =>
    obtain ⟨fuel, rfl⟩ := exists_eq_succ_of_ne_zero (ne_of_gt hfuel)
    have hend := produces_entries hwf hlinked hview hdata
    refine ⟨⟨last, off⟩, ?_, hend⟩
    rw [seekKeyLoop, hend]
  | cons e es ih =>
    obtain ⟨fuel, rfl⟩ := exists_eq_succ_of_ne_zero (ne_of_gt (zero_lt_of_lt hfuel))
    have he := hwf e mem_cons_self
    rw [seekKeyLoop, blockIterNext_entry he hlinked.1 hview]
    dsimp only
    split_ifs with hkey
    · rw [Overlay.dropBelow_cons_of_lt (show e.key codec < want from hkey)]
      exact ih (forall_mem_cons.mp hwf).2 hlinked.2 (Block.view_of_append hview)
        (lt_of_succ_lt_succ hfuel)
    · rw [Overlay.dropBelow_cons_of_le (show want ≤ e.key codec from not_lt.mp hkey)]
      exact ⟨_, rfl, produces_entries hwf ⟨⟨he.prefix_le, rfl⟩, hlinked.2⟩ hview hdata⟩

end

/-! ## Seeking -/

/-- The restart points `offsets` belong to the entries with the numbers `points`, which are stored
with their whole keys. -/
structure Restarts (codec : RecordCodec α) (start : Nat) (es : List (Entry α)) (offsets : List Nat)
    (points : List Nat) : Prop where
  offsets_eq : offsets = points.map fun k => start + (entriesBytes codec (es.take k)).length
  ascending : points.Pairwise (· < ·)
  full : ∀ k ∈ points, ∃ e, es[k]? = some e ∧ e.prefixLen = 0
  ne_nil : es ≠ [] → points ≠ []

/-- A block that has been read and that holds the entries. -/
structure Block.Holds (codec : RecordCodec α) (block : Block) (es : List (Entry α)) : Prop where
  wf : ∀ e ∈ es, e.WF codec
  linked : Linked codec [] es
  view : block.view (block.headerOff + 4) = entriesBytes codec es
  restartOff_le : block.restartOff ≤ block.data.length
  restarts : ∃ offsets points, Restarts codec (block.headerOff + 4) es offsets points ∧
    block.restartCount = offsets.length ∧
    ∀ i off, offsets[i]? = some off → blockRestartOffset block i = some off

/-- The bytes from an entry on. -/
theorem Block.Holds.view_drop (h : block.Holds codec es) (k : Nat) :
    block.view (block.headerOff + 4 + (entriesBytes codec (es.take k)).length) =
      entriesBytes codec (es.drop k) := by
  refine Block.view_of_append (h.view.trans ?_)
  rw [← entriesBytes_append, take_append_drop]

variable {k i : Nat} {points offsets : List Nat}

/-- The offset of a restart point. -/
theorem Restarts.offset_eq (h : Restarts codec start es offsets points)
    (hk : points[i]? = some k) :
    offsets[i]? = some (start + (entriesBytes codec (es.take k)).length) := by
  rw [h.offsets_eq, getElem?_map, hk]
  rfl

/-- The comparison with the key at a restart point. -/
theorem Block.Holds.restartNeedleLess_eq (h : block.Holds codec es)
    (hr : Restarts codec (block.headerOff + 4) es offsets points)
    (hoff : ∀ i off, offsets[i]? = some off → blockRestartOffset block i = some off)
    (hk : points[i]? = some k) (he : es[k]? = some e) (hfull : e.prefixLen = 0) (needle : Bytes) :
    restartNeedleLess block needle i = some (decide (needle < e.key codec)) := by
  obtain ⟨hlt, rfl⟩ := List.getElem?_eq_some_iff.mp he
  have hwf := h.wf _ (getElem_mem hlt)
  have hview := h.view_drop k
  rw [drop_eq_getElem_cons hlt, entriesBytes_cons] at hview
  simp only [restartNeedleLess, hoff i _ (hr.offset_eq hk), hview, decodeKeylen_bytes hwf,
    Option.bind_eq_bind, Option.bind_some]
  grind

theorem length_le_entriesBytes (es : List (Entry α)) :
    es.length ≤ (entriesBytes codec es).length := by
  induction es with
  | nil => exact le_rfl
  | cons e es ih =>
    have hpos := length_pos_iff.mpr (show e.bytes codec ≠ [] from e.bytes_ne_nil)
    rw [entriesBytes_cons, length_append, length_cons]
    omega

/-- Some entry that is stored with its whole key can be read after every key, and then all entries
behind it. -/
theorem Block.Holds.linked_of_full (h : block.Holds codec es) (he : es[k]? = some e)
    (hfull : e.prefixLen = 0) (last : Bytes) : Linked codec last (es.drop k) := by
  obtain ⟨hlt, rfl⟩ := List.getElem?_eq_some_iff.mp he
  have hdrop := drop_eq_getElem_cons hlt
  rw [hdrop]
  refine ⟨?_, linked_drop h.linked hdrop⟩
  rw [Entry.Follows, hfull]
  exact ⟨zero_le _, rfl⟩

/-- The scan from an entry that has no wanted key before it. -/
theorem Block.Holds.scan (h : block.Holds codec es) (hsorted : Overlay.Run (Entry.key codec) es)
    {want last : Bytes} (hbelow : ∀ e ∈ es.take k, e.key codec < want)
    (hlinked : Linked codec last (es.drop k)) :
    ∃ it, seekKeyLoop codec block want (block.restartOff + 1)
        ⟨last, block.headerOff + 4 + (entriesBytes codec (es.take k)).length⟩ = .ok it ∧
      Produces (blockIterNext codec block) it
        ((es.filter fun e => want ≤ e.key codec).map Entry.record) := by
  have hview := h.view_drop k
  have hfuel : (es.drop k).length < block.restartOff + 1 := by
    have hle := (length_le_entriesBytes (es.drop k)).trans_eq (congrArg List.length hview).symm
    rw [Block.view, length_take] at hle
    omega
  have hfilter : es.filter (fun e => want ≤ e.key codec) =
      Overlay.dropBelow (Entry.key codec) want (es.drop k) := by
    rw [Overlay.Run.dropBelow_eq_filter (List.Pairwise.drop hsorted)]
    conv_lhs => rw [← take_append_drop k es, filter_append]
    rw [append_left_eq_self, filter_eq_nil_iff]
    intro e he
    simpa using hbelow e he
  rw [hfilter]
  exact seekKeyLoop_entries (fun e he => h.wf e (mem_of_mem_drop he)) hlinked hview
    h.restartOff_le want hfuel

/-- The key at a restart point. -/
def pointKey (codec : RecordCodec α) (es : List (Entry α)) (points : List Nat) (i : Nat) : Bytes :=
  ((points[i]?.bind fun k => es[k]?).map (Entry.key codec)).getD []

theorem pointKey_eq (hk : points[i]? = some k)
    (he : es[k]? = some e) : pointKey codec es points i = e.key codec := by
  simp [pointKey, hk, he]

/-- The keys at the restart points ascend. -/
theorem Restarts.pointKey_le (h : Restarts codec start es offsets points)
    (hsorted : Overlay.Run (Entry.key codec) es)
    {j : Nat} (hij : i ≤ j) (hj : j < points.length) :
    pointKey codec es points i ≤ pointKey codec es points j := by
  rcases eq_or_lt_of_le hij with rfl | hlt
  · exact le_rfl
  have hi : i < points.length := hlt.trans hj
  obtain ⟨e, he, -⟩ := h.full _ (getElem_mem hi)
  obtain ⟨e', he', -⟩ := h.full _ (getElem_mem hj)
  rw [pointKey_eq (getElem?_eq_getElem hi) he, pointKey_eq (getElem?_eq_getElem hj) he']
  obtain ⟨hk, rfl⟩ := List.getElem?_eq_some_iff.mp he
  obtain ⟨hk', rfl⟩ := List.getElem?_eq_some_iff.mp he'
  have hpoints := pairwise_iff_getElem.mp h.ascending i j hi hj hlt
  exact (pairwise_iff_getElem.mp hsorted _ _ hk hk' hpoints).le

/-- A seek in a block that is not empty, from any position, leads to the first record that is not
below the wanted key. -/
theorem Block.Holds.seek (h : block.Holds codec es) (hsorted : Overlay.Run (Entry.key codec) es)
    (hne : es ≠ []) (it : BlockIter) (want : Bytes) :
    ∃ it', blockIterSeekKey codec block it want = .ok it' ∧
      Produces (blockIterNext codec block) it'
        ((es.filter fun e => want ≤ e.key codec).map Entry.record) := by
  obtain ⟨offsets, points, hr, hcount, hoff⟩ := h.restarts
  have hlen : offsets.length = points.length := by rw [hr.offsets_eq, length_map]
  have hpos : 0 < block.restartCount := by
    rw [hcount, hlen]
    exact length_pos_iff.mpr (hr.ne_nil hne)
  have hless : ∀ i < block.restartCount, restartNeedleLess block want i =
      some (decide (want < pointKey codec es points i)) := by
    intro i hi
    have hi : i < points.length := by omega
    obtain ⟨e, he, hfull⟩ := hr.full _ (getElem_mem hi)
    rw [pointKey_eq (getElem?_eq_getElem hi) he]
    exact h.restartNeedleLess_eq hr hoff (getElem?_eq_getElem hi) he hfull want
  obtain ⟨i, hle, hsearch, hfalse, -⟩ := binsearch_spec hpos hless fun i j hij hj hlt =>
    decide_eq_true ((of_decide_eq_true hlt).trans_le (hr.pointKey_le hsorted hij (by omega)))
  unfold blockIterSeekKey
  rw [hsearch]
  dsimp only
  cases i with
  | zero =>
    -- no restart point is at or below the wanted key: scan from the start
    obtain ⟨e, es', rfl⟩ := exists_cons_of_ne_nil hne
    have hfull : e.prefixLen = 0 := le_zero.mp h.linked.1.1
    exact h.scan hsorted (k := 0) (nofun) (h.linked_of_full (k := 0) rfl hfull it.lastKey)
  | succ i =>
    have hi : i < points.length := by omega
    obtain ⟨e, he, hfull⟩ := hr.full _ (getElem_mem hi)
    rw [if_pos (Nat.succ_pos i), Nat.add_sub_cancel,
      hoff i _ (hr.offset_eq (getElem?_eq_getElem hi))]
    refine h.scan hsorted ?_ (h.linked_of_full he hfull it.lastKey)
    -- what comes before a restart point is below its key, which is not above the wanted one
    intro e' he'
    have hwant := of_decide_eq_false (hfalse i (lt_succ_self i))
    rw [pointKey_eq (getElem?_eq_getElem hi) he, not_lt] at hwant
    obtain ⟨hk, rfl⟩ := List.getElem?_eq_some_iff.mp he
    obtain ⟨j, hj, rfl⟩ := mem_take_iff_getElem.mp he'
    refine lt_of_lt_of_le ?_ hwant
    exact pairwise_iff_getElem.mp hsorted j _ (by omega) hk (by omega)

end Blocks

/-! ## Writing -/

/-- A block under way that holds the entries. -/
structure BlockWriter.Holds (codec : RecordCodec α) (w : BlockWriter) (es : List (Entry α)) :
    Prop where
  wf : ∀ e ∈ es, e.WF codec
  linked : Linked codec [] es
  body : w.body = entriesBytes codec es
  lastKey : w.lastKey = lastEntryKey codec [] es
  lastKey_le : w.lastKey.length ≤ w.body.length
  entries : w.entries = es.length
  restarts : ∃ points, Restarts codec (w.headerOff + 4) es w.restarts points
  restarts_le : w.restarts.length ≤ maxRestarts
  room : es ≠ [] → w.next + 3 * w.restarts.length + 2 ≤ w.blockSize

/-- The bytes of a key: the length of the prefix that is left out, that of the rest together with
the value type, and the rest. -/
def keyBytes (prevKey key : Bytes) (extra : UInt8) : Bytes :=
  varInt (UInt64.ofNat (commonPrefixSize prevKey key)) ++
    (varInt (suffixField (key.length - commonPrefixSize prevKey key) extra) ++
      key.drop (commonPrefixSize prevKey key))

/-- The bytes of a key are written as a whole or not at all. -/
theorem encodeKey_eq (room : Nat) (prevKey key : Bytes) (extra : UInt8) :
    encodeKey room prevKey key extra =
      if (keyBytes prevKey key extra).length ≤ room then
        .ok (keyBytes prevKey key extra, commonPrefixSize prevKey key == 0)
      else .error .entryTooBig := by
  simp only [encodeKey, (encodes_putVarInt _).bind, keyBytes, length_append, length_drop,
    append_assoc]
  split_ifs <;> first | rfl | omega

/-- The entry that `block_writer_add` makes of a record. -/
def newEntry (codec : RecordCodec α) (w : BlockWriter) (record : α) (value : Bytes) : Entry α where
  record := record
  prefixLen :=
    commonPrefixSize (if w.entries % w.restartInterval = 0 then [] else w.lastKey)
      (codec.key record)
  value := value

variable {record : α} {w w' : BlockWriter}

/-- A record that is accepted is appended as a new entry. -/
theorem blockWriterAdd_eq_ok (h : blockWriterAdd codec w record = .ok w') :
    ∃ room value, codec.key record ≠ [] ∧ room ≤ w.blockSize ∧
      codec.encode room record = .ok value ∧
      blockWriterRegisterRestart w ((newEntry codec w record value).bytes codec)
        ((newEntry codec w record value).prefixLen == 0) (codec.key record) = .ok w' := by
  unfold blockWriterAdd at h
  dsimp only at h
  split at h
  · cases h
  rename_i hkey
  generalize hlast : (if w.entries % w.restartInterval = 0 then [] else w.lastKey) = last at h
  rw [encodeKey_eq] at h
  split_ifs at h with hle
  · change (codec.encode (w.blockSize - w.next - _) record).bind _ = _ at h
    generalize hroom : w.blockSize - w.next - _ = room at h
    obtain ⟨value, hv, h⟩ := exists_of_bind_eq_ok h
    refine ⟨room, value, hkey, by omega, hv, ?_⟩
    rw [← h]
    simp only [newEntry, hlast, Entry.bytes, Entry.key, keyBytes, append_assoc]
  · cases h

/-- The fields of the writer after a record was registered. -/
theorem blockWriterRegisterRestart_eq_ok {bytes key : Bytes} {isRestart : Bool}
    (h : blockWriterRegisterRestart w bytes isRestart key = .ok w') :
    w'.type = w.type ∧ w'.blockSize = w.blockSize ∧ w'.headerOff = w.headerOff ∧
      w'.body = w.body ++ bytes ∧ w'.entries = w.entries + 1 ∧ w'.lastKey = key ∧
      w'.restarts = w.restartsWith isRestart ∧
      w'.next + 3 * w'.restarts.length + 2 ≤ w'.blockSize := by
  unfold blockWriterRegisterRestart at h
  split at h
  · cases h
  rename_i hroom
  obtain rfl := Except.ok.inj h
  refine ⟨rfl, rfl, rfl, rfl, rfl, rfl, rfl, ?_⟩
  unfold BlockWriter.next at hroom ⊢
  dsimp only
  rw [length_append]
  omega

/-- Adding a record leaves the layout of the block as it is. -/
theorem blockWriterAdd_frame (h : blockWriterAdd codec w record = .ok w') :
    w'.type = w.type ∧ w'.blockSize = w.blockSize ∧ w'.headerOff = w.headerOff := by
  obtain ⟨room, value, -, -, -, hreg⟩ := blockWriterAdd_eq_ok h
  obtain ⟨htype, hbs, hho, -⟩ := blockWriterRegisterRestart_eq_ok hreg
  exact ⟨htype, hbs, hho⟩

/-- The new entry can be read after the one before it. -/
theorem newEntry_follows (w : BlockWriter) (record : α) (value : Bytes) :
    (newEntry codec w record value).Follows codec w.lastKey := by
  unfold Entry.Follows newEntry
  split
  · exact ⟨zero_le _, rfl⟩
  · exact ⟨commonPrefixSize_le_left _ _, take_commonPrefixSize _ _⟩

/-- Restart points with the next entry. -/
theorem Restarts.add (h : Restarts codec (w.headerOff + 4) es w.restarts points)
    (hbody : w.body = entriesBytes codec es) (hfirst : es = [] → e.prefixLen = 0) :
    ∃ points', Restarts codec (w.headerOff + 4) (es ++ [e])
      (w.restartsWith (e.prefixLen == 0)) points' := by
  have hlt : ∀ k ∈ points, k < es.length := by
    intro k hk
    obtain ⟨e, he, -⟩ := h.full k hk
    exact (List.getElem?_eq_some_iff.mp he).1
  have hold : points.map (fun k => w.headerOff + 4 + (entriesBytes codec (es.take k)).length) =
      points.map fun k => w.headerOff + 4 + (entriesBytes codec ((es ++ [e]).take k)).length := by
    refine map_congr_left fun k hk => ?_
    rw [take_append_of_le_length (hlt k hk).le]
  have hfull : ∀ k ∈ points, ∃ e', (es ++ [e])[k]? = some e' ∧ e'.prefixLen = 0 := by
    intro k hk
    obtain ⟨e', he', hzero⟩ := h.full k hk
    exact ⟨e', by rw [getElem?_append_left (hlt k hk), he'], hzero⟩
  unfold BlockWriter.restartsWith
  split
  · rename_i hcond
    refine ⟨points ++ [es.length], ?_, ?_, ?_, fun _ => by simp⟩
    · rw [map_append, ← hold, ← h.offsets_eq]
      simp [BlockWriter.next, hbody]
    · refine pairwise_append.mpr ⟨h.ascending, pairwise_singleton _ _, ?_⟩
      grind
    grind
  · rename_i hcond
    refine ⟨points, h.offsets_eq.trans hold, h.ascending, hfull, fun _ => ?_⟩
    -- the first entry always gets a restart point
    cases es with
    | nil =>
      obtain rfl : points = [] := eq_nil_iff_forall_not_mem.mpr fun k hk =>
        absurd (hlt k hk) (not_lt_zero k)
      rw [h.offsets_eq, hfirst rfl] at hcond
      exact absurd ⟨rfl, (by decide : 0 < maxRestarts)⟩ hcond
    | cons e' es => exact h.ne_nil (cons_ne_nil _ _)

/-- A writer that holds no entry. -/
theorem BlockWriter.Holds.of_init {type : BlockType}
    (h : blockWriterInit type blockSize headerOff restartInterval = some w) :
    w.Holds codec [] ∧ w.type = type ∧ w.blockSize = blockSize ∧ w.headerOff = headerOff := by
  unfold blockWriterInit at h
  split at h
  · obtain rfl := Option.some.inj h
    refine ⟨?_, rfl, rfl, rfl⟩
    exact ⟨nofun, trivial, rfl, rfl, le_rfl, rfl,
      ⟨[], rfl, List.Pairwise.nil, nofun, fun h => absurd rfl h⟩,
      zero_le _, fun h => absurd rfl h⟩
  · cases h

/-- A record that is accepted becomes an entry that can be read back. -/
theorem BlockWriter.Holds.add (h : w.Holds codec es) (hsize : w.blockSize < 2 ^ 24)
    (hrestores : codec.Restores record) (hadd : blockWriterAdd codec w record = .ok w') :
    ∃ e, e.record = record ∧ w'.Holds codec (es ++ [e]) := by
  obtain ⟨room, value, hkey, hroom, hvalue, hreg⟩ := blockWriterAdd_eq_ok hadd
  obtain ⟨-, hbs, hho, hbody, hentries, hlast, hrestarts, hnext⟩ :=
    blockWriterRegisterRestart_eq_ok hreg
  obtain ⟨points, hpoints⟩ := h.restarts
  generalize hnew : newEntry codec w record value = e at *
  have hrecord : e.record = record := by rw [← hnew]; rfl
  have hfirst : es = [] → e.prefixLen = 0 := by
    rintro rfl
    have hzero : w.entries = 0 := h.entries
    rw [← hnew, newEntry, hzero, zero_mod]
    rfl
  have hkeyeq : e.key codec = codec.key record := congrArg codec.key hrecord
  have hfollows : e.Follows codec w.lastKey := hnew ▸ newEntry_follows w record value
  have hshared : e.prefixLen ≤ (codec.key record).length := by
    rw [← hnew]
    exact commonPrefixSize_le_right _ _
  -- a key is not longer than the bytes up to its end
  have hkeylen : (e.key codec).length ≤ w'.body.length := by
    have hle := hfollows.1
    have hlastKey := h.lastKey_le
    rw [hbody]
    simp only [Entry.bytes, length_append, length_drop]
    omega
  have hbodyle : w'.body.length < 2 ^ 24 := by
    have := w'.next_le
    omega
  have hwf : e.WF codec :=
    { key_ne_nil := hkeyeq ▸ hkey
      key_lt := by omega
      prefix_le := hkeyeq ▸ hshared
      valType_lt := hrecord ▸ hrestores.valType_lt
      decode := by
        have hvalueEq : e.value = value := by rw [← hnew]; rfl
        rw [hvalueEq, hkeyeq, hrecord]
        exact hrestores.decode_encode (by omega) hkey hvalue }
  refine ⟨e, hrecord, ?_, ?_, ?_, ?_, ?_, ?_, ?_, ?_, ?_⟩
  · exact forall_mem_append.mpr ⟨h.wf, forall_mem_singleton.mpr hwf⟩
  · exact linked_append h.linked (h.lastKey ▸ hfollows)
  · rw [hbody, h.body, entriesBytes_append]
    simp
  · rw [hlast, lastEntryKey_append, hkeyeq]
  · rw [hlast, ← hkeyeq]
    exact hkeylen
  · rw [hentries, h.entries, length_append, length_singleton]
  · rw [hrestarts, hho]
    exact hpoints.add h.body hfirst
  · rw [hrestarts, BlockWriter.restartsWith]
    have hle := h.restarts_le
    grind
  · exact fun _ => hnext

/-- The writer after a sequence of records holds those that were accepted. -/
theorem BlockWriter.Holds.addAll (h : w.Holds codec es) (hsize : w.blockSize < 2 ^ 24)
    {records accepted : List α} (hrestores : ∀ r ∈ records, codec.Restores r)
    (hadd : blockWriterAddAll codec w records = (w', accepted)) :
    (∃ es', es'.map Entry.record = accepted ∧ w'.Holds codec (es ++ es')) ∧
      accepted.Sublist records ∧ w'.type = w.type ∧ w'.blockSize = w.blockSize ∧
      w'.headerOff = w.headerOff := by
  induction records generalizing w es accepted with
  | nil =>
    obtain ⟨rfl, rfl⟩ := Prod.mk.inj hadd
    exact ⟨⟨[], rfl, by rwa [append_nil]⟩, List.Sublist.refl _, rfl, rfl, rfl⟩
  | cons record records ih =>
    rw [blockWriterAddAll] at hadd
    cases hone : blockWriterAdd codec w record with
    | error e =>
      rw [hone] at hadd
      obtain ⟨hes, hsub, hrest⟩ := ih h hsize (forall_mem_cons.mp hrestores).2 hadd
      exact ⟨hes, hsub.cons _, hrest⟩
    | ok w₁ =>
      rw [hone] at hadd
      obtain ⟨rfl, rfl⟩ := Prod.mk.inj hadd
      obtain ⟨e, rfl, hholds⟩ := h.add hsize (hrestores record mem_cons_self) hone
      obtain ⟨htype, hbs, hho⟩ := blockWriterAdd_frame hone
      obtain ⟨⟨es', hrecords, hes⟩, hsub, htype', hbs', hho'⟩ := ih hholds (hbs ▸ hsize)
        (forall_mem_cons.mp hrestores).2 rfl
      refine ⟨⟨e :: es', congrArg _ hrecords, ?_⟩, hsub.cons_cons _, htype'.trans htype,
        hbs'.trans hbs, hho'.trans hho⟩
      rw [append_assoc] at hes
      exact hes

/-! ## From the writer to the reader -/

section Reading

variable {zlib : Zlib}

/-- The length of a finished block. -/
def BlockWriter.size (w : BlockWriter) : Nat := w.headerOff + 4 + w.payload.length

theorem BlockWriter.size_eq (w : BlockWriter) : w.size = w.next + 3 * w.restarts.length + 2 := by
  rw [BlockWriter.size, BlockWriter.payload, length_append, length_append,
    length_flatMap_of_width fun _ _ => length_putBe24 _, length_putBe16, BlockWriter.next]
  omega

/-- The bytes that a block with this header starts with. -/
def BlockWriter.image (w : BlockWriter) (header : Bytes) : Bytes :=
  header ++ (w.type.byte :: putBe24 w.size) ++ w.payload

variable {header : Bytes} {guess : Nat}

theorem BlockWriter.length_image (w : BlockWriter) (h : header.length = w.headerOff) :
    (w.image header).length = w.size := by
  simp only [BlockWriter.image, length_append, length_cons, length_putBe24, BlockWriter.size, h]

theorem blockWriterFinish_eq (htype : w.type ≠ .log) (header : Bytes) :
    blockWriterFinish zlib header w = w.image header := by
  rw [blockWriterFinish, if_neg htype]
  rfl

/-- A finished block, followed by anything, holds what the writer holds. -/
theorem BlockWriter.Holds.block (h : w.Holds codec es) (hsize : w.size < 2 ^ 24)
    (hheader : header.length = w.headerOff) (tail : Bytes) (fullBlockSize : Nat) :
    ∃ block, blockSetup (w.image header ++ tail) w.type w.headerOff w.size fullBlockSize =
        .ok (some block) ∧ block.Holds codec es ∧ block.headerOff = w.headerOff ∧
      block.type = w.type ∧ block.fullBlockSize = fullBlockSize := by
  have hsizeEq := w.size_eq
  have hnext : w.next = w.headerOff + 4 + w.body.length := rfl
  -- the bytes from the restart points on, and from their number on
  have hstart : (header ++ (w.type.byte :: putBe24 w.size)).length = w.headerOff + 4 := by
    rw [length_append, hheader]
    rfl
  have himage : w.image header ++ tail = header ++ (w.type.byte :: putBe24 w.size) ++
      (w.body ++ (w.restarts.flatMap putBe24 ++ (putBe16 w.restarts.length ++ tail))) := by
    simp only [BlockWriter.image, BlockWriter.payload, append_assoc]
  have hrestarts : (w.image header ++ tail).drop w.next =
      w.restarts.flatMap putBe24 ++ (putBe16 w.restarts.length ++ tail) := by
    rw [himage, hnext, ← hstart, ← drop_drop, drop_left, drop_left]
  have hcount : (w.image header ++ tail).drop (w.size - 2) =
      putBe16 w.restarts.length ++ tail := by
    rw [show w.size - 2 = w.next + (w.restarts.flatMap putBe24).length by
      rw [length_flatMap_of_width fun _ _ => length_putBe24 _]; omega, ← drop_drop, hrestarts,
      drop_left]
  have hmax : w.restarts.length < 2 ^ 16 := lt_of_le_of_lt h.restarts_le (by decide)
  refine ⟨⟨w.image header ++ tail, w.type, w.headerOff, w.next, w.restarts.length, fullBlockSize⟩,
    ?_, ?_, rfl, rfl, rfl⟩
  · unfold blockSetup
    rw [hcount, getBe16_putBe16 hmax]
    dsimp only
    rw [if_neg (by omega), show w.size - 2 - 3 * w.restarts.length = w.next by omega]
  constructor
  case wf => exact h.wf
  case linked => exact h.linked
  case view =>
    change ((w.image header ++ tail).drop (w.headerOff + 4)).take (w.next - (w.headerOff + 4)) = _
    rw [himage, ← hstart, drop_left, hstart, hnext, Nat.add_sub_cancel_left, take_left, h.body]
  case restartOff_le =>
    grind
  case restarts =>
    obtain ⟨points, hpoints⟩ := h.restarts
    refine ⟨w.restarts, points, hpoints, rfl, ?_⟩
    intro i off hi
    change getBe24 ((w.image header ++ tail).drop (w.next + 3 * i)) = some off
    rw [← drop_drop, hrestarts, drop_flatMap_append (fun _ _ => length_putBe24 _) hi]
    refine getBe24_putBe24 ?_ _
    -- a restart point lies inside the block
    rw [hpoints.offsets_eq] at hi
    obtain ⟨k, -, rfl⟩ := mem_map.mp (mem_of_getElem? hi)
    have hlen : (entriesBytes codec (es.take k)).length ≤ w.body.length := by
      rw [h.body, ← take_append_drop k es, entriesBytes_append, length_append, take_append_drop]
      exact le_add_right _ _
    omega

/-- The header of a finished block as the reader sees it, whatever follows. -/
theorem BlockWriter.read_header (w : BlockWriter) (hheader : header.length = w.headerOff)
    (hsize : w.size < 2 ^ 24) (rest : Bytes) (hguess : w.headerOff + 4 ≤ guess) :
    ((header ++ (w.type.byte :: putBe24 w.size) ++ rest).take guess)[w.headerOff]? =
        some w.type.byte ∧
      getBe24 (((header ++ (w.type.byte :: putBe24 w.size) ++ rest).take guess).drop
        (w.headerOff + 1)) = some w.size := by
  have hdrop : (header ++ (w.type.byte :: putBe24 w.size) ++ rest).drop (w.headerOff + 1) =
      putBe24 w.size ++ rest := by
    rw [append_assoc, ← drop_drop, ← hheader, drop_left]
    rfl
  constructor
  · grind
  · rw [drop_take, hdrop, take_append, take_of_length_le]
    · exact getBe24_putBe24 hsize _
    · rw [length_putBe24]
      omega

/-- The start of a finished block as the reader sees it. -/
theorem BlockWriter.image_header (w : BlockWriter) (hheader : header.length = w.headerOff)
    (hsize : w.size < 2 ^ 24) (tail : Bytes) (hguess : w.headerOff + 4 ≤ guess) :
    ((w.image header ++ tail).take guess)[w.headerOff]? = some w.type.byte ∧
      getBe24 (((w.image header ++ tail).take guess).drop (w.headerOff + 1)) = some w.size := by
  rw [BlockWriter.image, append_assoc]
  exact w.read_header hheader hsize (w.payload ++ tail) hguess

variable {source tail : Bytes} {offset tableBlockSize : Nat}

/-- The block and what is read of the bytes behind it. -/
theorem BlockWriter.readBlock_image (w : BlockWriter) (hheader : header.length = w.headerOff)
    (hsource : source.drop offset = w.image header ++ tail) (guess : Nat) :
    (if guess < w.size then readBlock source offset w.size else readBlock source offset guess) =
      w.image header ++ tail.take (guess - w.size) := by
  have hlen := w.length_image hheader
  unfold readBlock
  rw [hsource]
  split
  · rename_i hlt
    rw [← hlen, take_left, hlen, Nat.sub_eq_zero_of_le hlt.le, take_zero, append_nil]
  · rw [take_append, hlen, take_of_length_le (by omega)]

/-- The size of a block with its padding, which a byte other than zero behind it rules out. -/
def fullSize (tableBlockSize size : Nat) (behind : Option UInt8) : Nat :=
  if tableBlockSize = 0 then size
  else if size < tableBlockSize ∧ behind.any (· ≠ 0) then size
  else tableBlockSize

variable (zlib : Zlib) (hsize : w.size < 2 ^ 24) (hheader : header.length = w.headerOff)
  (hoffset : offset < 2 ^ 32) (hsource : source.drop offset = w.image header ++ tail)
  (hguess : w.headerOff + 4 ≤ if tableBlockSize ≠ 0 then tableBlockSize else defaultBlockSize)

include hsize hheader hoffset hsource hguess

/-- `reftable_block_init` on a finished block that lies at `offset`. -/
theorem BlockWriter.Holds.blockInit (h : w.Holds codec es) (htype : w.type ≠ .log) :
    ∃ block, (∀ wantType, wantType = none ∨ wantType = some w.type →
        Reftable.blockInit zlib source offset w.headerOff tableBlockSize wantType =
          .ok (some block)) ∧
      block.Holds codec es ∧ block.headerOff = w.headerOff ∧ block.type = w.type ∧
      block.fullBlockSize = fullSize tableBlockSize w.size tail[0]? := by
  generalize hg : (if tableBlockSize ≠ 0 then tableBlockSize else defaultBlockSize) = guess at *
  obtain ⟨hbyte, hlen⟩ := w.image_header hheader hsize tail hguess
  have hlenImage := w.length_image hheader
  have hfull : fullSize tableBlockSize w.size
      (w.image header ++ tail.take (guess - w.size))[w.size]? =
        fullSize tableBlockSize w.size tail[0]? := by
    unfold fullSize
    by_cases hzero : tableBlockSize = 0
    · rw [if_pos hzero, if_pos hzero]
    rw [if_neg hzero, if_neg hzero]
    rw [if_pos hzero] at hg
    by_cases hlt : w.size < tableBlockSize
    · rw [getElem?_append_right hlenImage.le, hlenImage, Nat.sub_self,
        getElem?_take_of_lt (by omega)]
    · rw [if_neg (fun hc => hlt hc.1), if_neg (fun hc => hlt hc.1)]
  obtain ⟨block, hsetup, hholds⟩ :=
    h.block hsize hheader (tail.take (guess - w.size)) (fullSize tableBlockSize w.size tail[0]?)
  refine ⟨block, ?_, hholds⟩
  intro wantType hwant
  unfold Reftable.blockInit
  dsimp only
  have hread : (w.image header ++ tail).take guess = readBlock source offset guess := by
    rw [readBlock, hsource]
  rw [hread] at hbyte hlen
  rw [mod_eq_of_lt hoffset, hg, hbyte]
  dsimp only
  rw [BlockType.ofByte_byte]
  dsimp only
  rw [if_neg (by rcases hwant with rfl | rfl <;> simp), hlen]
  dsimp only
  rw [w.readBlock_image hheader hsource guess, blockUncompress, if_neg htype]
  rw [← hsetup, ← hfull, fullSize]

/-- `reftable_block_init` on a block of another type than the wanted one. -/
theorem BlockWriter.blockInit_other {type : BlockType} (htype : w.type ≠ type) :
    Reftable.blockInit zlib source offset w.headerOff tableBlockSize (some type) = .ok none := by
  unfold Reftable.blockInit
  dsimp only
  rw [mod_eq_of_lt hoffset, readBlock, hsource, (w.image_header hheader hsize tail hguess).1]
  dsimp only
  rw [BlockType.ofByte_byte]
  exact if_pos ⟨by simp, by simpa using htype⟩

end Reading

/-! ## Blocks of all types -/

/-- A finished block is not larger than it may become. -/
theorem BlockWriter.Holds.size_le (h : w.Holds codec es) (hempty : w.headerOff + 6 ≤ w.blockSize) :
    w.size ≤ w.blockSize := by
  rw [w.size_eq]
  cases es with
  | cons e es => exact h.room (cons_ne_nil e es)
  | nil =>
    obtain ⟨points, hpoints⟩ := h.restarts
    have hnil : points = [] := eq_nil_iff_forall_not_mem.mpr fun k hk => by
      obtain ⟨e, he, -⟩ := hpoints.full k hk
      cases he
    have hrestarts : w.restarts = [] := by rw [hpoints.offsets_eq, hnil, map_nil]
    rw [hrestarts, BlockWriter.next, h.body, entriesBytes_nil, length_nil]
    omega

/-- **Reading back a block.** Take a block of any type but log, of a size that its length field can
hold, and records with ascending keys that are offered to it. Reading the finished block hands out
exactly the records that were accepted. If there are any, a seek for any key, from any position,
succeeds, and reading on from there hands out exactly those that are not below the key. -/
theorem block_roundtrip {hashSize : Nat} {type : BlockType} (htype : type ≠ .log) {zlib : Zlib}
    {blockSize headerOff restartInterval : Nat}
    (hsize : headerOff + 6 ≤ blockSize ∧ blockSize < 2 ^ 24)
    {w w' : BlockWriter} (hinit : blockWriterInit type blockSize headerOff restartInterval = some w)
    {records accepted : List (BlockRecord hashSize type)}
    (hsorted : Overlay.Run (recordCodec hashSize type).key records)
    (hadd : blockWriterAddAll (recordCodec hashSize type) w records = (w', accepted))
    {header : Bytes} (hheader : header.length = headerOff) (tail : Bytes) {tableBlockSize : Nat}
    (htable : tableBlockSize = blockSize ∨
      (tableBlockSize = 0 ∧ headerOff + 4 ≤ defaultBlockSize)) :
    ∃ block, blockInit zlib (blockWriterFinish zlib header w' ++ tail) 0 headerOff tableBlockSize
        (some type) = .ok (some block) ∧
      Produces (blockIterNext (recordCodec hashSize type) block) (blockIterSeekStart block)
        accepted ∧
      (accepted ≠ [] → ∀ it want, ∃ it',
        blockIterSeekKey (recordCodec hashSize type) block it want = .ok it' ∧
          Produces (blockIterNext (recordCodec hashSize type) block) it'
            (accepted.filter fun r => want ≤ (recordCodec hashSize type).key r)) := by
  have := recordCodec_lawful hashSize htype
  obtain ⟨hempty, rfl, rfl, rfl⟩ := BlockWriter.Holds.of_init hinit
  obtain ⟨⟨es, rfl, hes⟩, hsub, htype', hbs, hho⟩ := hempty.addAll hsize.2
    (fun r _ => RecordCodec.restores _ r) hadd
  rw [nil_append] at hes
  rw [← htype'] at htype
  rw [blockWriterFinish_eq htype]
  have hle := hes.size_le (by omega)
  have hguess : w'.headerOff + 4 ≤ if tableBlockSize ≠ 0 then tableBlockSize
      else defaultBlockSize := by grind
  obtain ⟨block, hinitAll, hblock, -⟩ := hes.blockInit zlib (by omega)
    (hheader.trans hho.symm) (show 0 < 2 ^ 32 by decide) (drop_zero) hguess htype
  have hinitBlock := hinitAll (some w'.type) (.inr rfl)
  rw [hho, htype'] at hinitBlock
  refine ⟨block, hinitBlock, ?_, ?_⟩
  · exact produces_entries hblock.wf hblock.linked hblock.view hblock.restartOff_le
  intro hne it want
  have hrunRecords : Overlay.Run (recordCodec hashSize w.type).key (es.map Entry.record) :=
    List.Pairwise.sublist hsub hsorted
  have hrun : Overlay.Run (Entry.key (recordCodec hashSize w.type)) es :=
    (Overlay.run_map (f := Entry.record)).mp hrunRecords
  obtain ⟨it', hseek, hproduces⟩ := hblock.seek hrun (fun h => hne (by rw [h]; rfl)) it want
  refine ⟨it', hseek, ?_⟩
  rw [filter_map]
  exact hproduces

/-- A stand-in for `zlib` where nothing is compressed. -/
def noZlib : Zlib := ⟨id, fun _ _ => none, fun _ => 0⟩

/-- Two index records in a block of 64 bytes. -/
theorem block_roundtrip_two :
    ∃ w w' block, blockWriterInit .index 64 0 2 = some w ∧
      blockWriterAddAll indexRecordCodec w [⟨1, [97]⟩, ⟨2, [97, 98]⟩] =
        (w', [⟨1, [97]⟩, ⟨2, [97, 98]⟩]) ∧
      blockInit noZlib (blockWriterFinish noZlib [] w' ++ [0]) 0 0 64 (some .index) =
        .ok (some block) ∧
      Produces (blockIterNext indexRecordCodec block) (blockIterSeekStart block)
        [⟨1, [97]⟩, ⟨2, [97, 98]⟩] := by
  obtain ⟨w, hw⟩ : ∃ w, blockWriterInit .index 64 0 2 = some w := ⟨_, rfl⟩
  obtain ⟨w', hw'⟩ : ∃ w', blockWriterAddAll indexRecordCodec w [⟨1, [97]⟩, ⟨2, [97, 98]⟩] =
      (w', [⟨1, [97]⟩, ⟨2, [97, 98]⟩]) := by
    obtain rfl := Option.some.inj hw
    exact ⟨_, rfl⟩
  obtain ⟨block, hblock, hproduces, -⟩ := @block_roundtrip 20 .index (by decide)
    noZlib 64 0 2 (by decide) w w' hw [⟨1, [97]⟩, ⟨2, [97, 98]⟩]
    [⟨1, [97]⟩, ⟨2, [97, 98]⟩] (pairwise_pair.mpr (by decide)) hw' [] rfl [0] 64 (.inl rfl)
  exact ⟨w, w', block, hw, hw', hblock, hproduces⟩

/-- In a block without records the search for a restart point takes the start of the block for one
and fails, and the seek then releases a record that it has not initialised. -/
theorem blockIterSeekKey_empty :
    ∃ w block, blockWriterInit .ref 64 0 16 = some w ∧
      blockWriterFinish noZlib [] w = [0x72, 0, 0, 6, 0, 0] ∧
      blockInit noZlib ([0x72, 0, 0, 6, 0, 0] ++ [0, 0]) 0 0 64 (some .ref) = .ok (some block) ∧
      blockIterSeekKey (refRecordCodec 20) block (blockIterSeekStart block) [97] =
        .error .undefined := by
  refine ⟨⟨.ref, 64, 0, 16, [], [], 0, [], by decide, by decide⟩,
    ⟨[0x72, 0, 0, 6, 0, 0, 0, 0], .ref, 0, 4, 0, 64⟩, rfl, ?_, ?_, ?_⟩
  · rfl
  · decide +kernel
  · decide +kernel

end GitCore.Reftable
