import GitCore.Midx.Lookup
import GitCore.Pack.Index
import Mathlib.Tactic.Ring

/-! # Lookup in the index of a pack

An index that `write_idx_file` writes and `load_idx` accepts has what was written. It is accepted
unless each object has an entry in the large offset table: `load_idx` allows for one entry less than
there are objects. -/

namespace GitCore.Pack

open Nat UInt32 Option List
open Notes (HashAlgo Oid)
open Midx (firstByte hashcmp oidcmp firstByte_lt firstByte_mono hashcmp_iff
  toUInt64_toUInt32)
open Reftable (Bytes putBe32 putBe64 getBe32 getBe64 getBe32_putBe32 getBe64_putBe64 length_putBe32
  length_putBe64)

variable {algo : HashAlgo} {opts : PackIdxOption} {objects list : List (PackIdxEntry algo)}
  {obj : PackIdxEntry algo} {i : Nat} {index file : Bytes}

/-! ## The order of the ids -/

theorem oidcmp_nonpos_iff (a b : Oid algo) : oidcmp a b ≤ 0 ↔ a ≤ b := by
  unfold oidcmp
  grind

instance : IsTrans (PackIdxEntry algo) fun a b => oidcmp a.oid b.oid ≤ 0 where
  trans a b c hab hbc := by
    rw [oidcmp_nonpos_iff] at hab hbc ⊢
    exact hab.trans hbc

instance : Std.Total fun a b : PackIdxEntry algo => oidcmp a.oid b.oid ≤ 0 where
  total a b := by
    rw [oidcmp_nonpos_iff, oidcmp_nonpos_iff]
    exact le_total a.oid b.oid

theorem sortedBySha_perm (objects : List (PackIdxEntry algo)) :
    (sortedBySha objects).Perm objects :=
  perm_insertionSort _ objects

/-- **Sorting** brings the ids in ascending order. -/
theorem sortedBySha_ascending (hids : (objects.map PackIdxEntry.oid).Nodup) :
    (sortedBySha objects).Pairwise fun a b => a.oid < b.oid := by
  have hle : (sortedBySha objects).Pairwise fun a b => oidcmp a.oid b.oid ≤ 0 :=
    pairwise_insertionSort _ objects
  have hne : (sortedBySha objects).Pairwise fun a b => a.oid ≠ b.oid :=
    pairwise_map.mp (((sortedBySha_perm objects).map _).nodup_iff.mpr hids)
  refine (hle.and hne).imp fun {a b} hab => ?_
  exact lt_of_le_of_ne ((oidcmp_nonpos_iff _ _).mp hab.1) hab.2

/-! ## The tables -/

/-- The number of objects up to a first byte, for each byte. -/
def FanoutOf (list : List (PackIdxEntry algo)) (index : Bytes) : Prop :=
  ∀ v < 256, getBe32 (index.drop (4 * v)) =
    some (bucketCount (fun obj => firstByte obj.oid) list v)

/-- A loop over the table sees ascending counts. -/
theorem checkFanout_eq (h : FanoutOf list index) {n nr : Nat} (hn : i + n = 256)
    (hnr : ∀ v, i ≤ v → nr ≤ bucketCount (fun obj => firstByte obj.oid) list v) :
    checkFanout index n i nr =
      some (if n = 0 then nr else bucketCount (fun obj => firstByte obj.oid) list 255) := by
  induction n generalizing i nr with
  | zero => rfl
  | succ n ih =>
    rw [checkFanout, h i (by omega)]
    dsimp only
    rw [if_neg (not_lt.mpr (hnr i le_rfl)), ih (by omega) fun v hv => bucketCount_mono (by omega),
      if_neg (succ_ne_zero n)]
    grind

theorem checkFanout_of_fanoutOf (h : FanoutOf list index) :
    checkFanout index 256 0 0 = some list.length := by
  rw [checkFanout_eq h rfl fun v _ => zero_le _, if_neg (by decide),
    bucketCount_eq_length fun obj _ => le_of_lt_succ (firstByte_lt obj.oid)]

variable (hlist : list.Pairwise fun a b => a.oid < b.oid)

section

include hlist

theorem writeFanout_eq :
    writeFanout list = (List.range' 0 256).flatMap fun v =>
      putBe32 (bucketCount (fun obj => firstByte obj.oid) list v) := by
  have hbuckets := pairwise_bucket firstByte_mono hlist
  rw [writeFanout, fanoutLoop_eq hbuckets fun obj _ => zero_le _, flatMap_map]
  refine flatMap_congr fun v _ => ?_
  rw [zero_add]

theorem length_writeFanout : (writeFanout list).length = 4 * 256 := by
  rw [writeFanout_eq hlist, length_flatMap_of_width fun v _ => length_putBe32 _, length_range']

/-- **The fan-out table** has the counts. -/
theorem fanoutOf_writeFanout
    (hlength : list.length < 2 ^ 31) (rest : Bytes) : FanoutOf list (writeFanout list ++ rest) := by
  intro v hv
  have hcount := @bucketCount_le_length _ (fun obj : PackIdxEntry algo => firstByte obj.oid) list v
  rw [writeFanout_eq hlist, drop_flatMap_append (fun v _ => length_putBe32 _)
    (getElem?_range' hv), Nat.zero_add, Nat.one_mul, getBe32_putBe32 (by omega)]

/-- **The search** finds an id at its position, and only there. -/
theorem bsearchHash_eq {fanoutNbo table : Bytes} {stride : Nat} (hfanout : FanoutOf list fanoutNbo)
    (htable : ∀ i obj, list[i]? = some obj →
      (table.drop (stride * i)).take algo.rawsz = obj.oid.1) (oid : Oid algo) :
    ∃ r, bsearchHash oid fanoutNbo table stride = some r ∧
      ∀ pos, r = .inl pos ↔ ∃ obj, list[pos]? = some obj ∧ obj.oid = oid := by
  have hbyte := firstByte_lt oid
  have hcompares : ComparesWith oid PackIdxEntry.oid list
      (fun mi => hashcmp oid.1 ((table.drop (stride * mi)).take algo.rawsz)) := by
    intro i obj hobj
    dsimp only
    rw [htable i obj hobj]
    exact ⟨(hashcmp_iff _ _).1, (hashcmp_iff _ _).2.1⟩
  rw [bsearchHash, hfanout _ hbyte, fanout_start hfanout hbyte]
  exact ⟨_, rfl, fanout_search hcompares firstByte_mono hlist rfl rfl⟩

/-- **The ids** are all written. -/
theorem writeIds_eq (strict : Bool) (version : UInt32) {before : Option (Oid algo)}
    (hbefore : ∀ obj ∈ list, before ≠ some obj.oid) :
    writeIds strict version before list = some (list.flatMap (idEntry version)) := by
  induction list generalizing before with
  | nil => rfl
  | cons obj list ih =>
    obtain ⟨hobj, hlist⟩ := pairwise_cons.mp hlist
    have hnext : ∀ next ∈ list, some obj.oid ≠ some next.oid := fun next hmem heq =>
      (hobj next hmem).ne (Option.some.inj heq)
    rw [writeIds, if_neg fun h => hbefore obj mem_cons_self h.2, ih hlist hnext]
    rfl

end

/-- A word of the 32-bit offset table. -/
def offsetWord (opts : PackIdxOption) (nrLargeOffset : Nat) (obj : PackIdxEntry algo) : UInt32 :=
  if needLargeOffset obj.offset opts then 0x80000000 ||| UInt32.ofNat nrLargeOffset
  else obj.offset.toUInt32

/-- The objects with an entry in the large offset table. -/
def isLarge (opts : PackIdxOption) (obj : PackIdxEntry algo) : Bool := needLargeOffset obj.offset opts

/-- **The offset table** has a word for each object, and the large offsets are counted. -/
theorem writeOffsets_spec (opts : PackIdxOption) (list : List (PackIdxEntry algo)) (n : Nat) :
    (writeOffsets opts list (UInt32.ofNat n)).2 = UInt32.ofNat (n + list.countP (isLarge opts)) ∧
      (writeOffsets opts list (UInt32.ofNat n)).1.length = 4 * list.length ∧
      ∀ pos obj, list[pos]? = some obj →
        ∃ rest, (writeOffsets opts list (UInt32.ofNat n)).1.drop (4 * pos) =
          putBe32 (offsetWord opts (n + (list.take pos).countP (isLarge opts)) obj).toNat ++ rest := by
  have hwidth : ∀ n, ∀ obj ∈ list, (putBe32 (offsetWord opts n obj).toNat).length = 4 :=
    fun _ _ _ => rfl
  have hpair : writeOffsets opts list (UInt32.ofNat n) =
      (numberedFlatMap (isLarge opts) (fun n obj => putBe32 (offsetWord opts n obj).toNat) n list,
        UInt32.ofNat (n + list.countP (isLarge opts))) := by
    induction list generalizing n with
    | nil => rfl
    | cons obj list ih =>
      -- the counter goes up by one for a large offset
      have hrest := ih (n + if isLarge opts obj then 1 else 0) fun _ _ _ => rfl
      rw [add_assoc, add_comm (if isLarge opts obj then 1 else 0), ← countP_cons] at hrest
      rw [writeOffsets, numberedFlatMap, offsetWord]
      unfold isLarge at hrest ⊢
      split_ifs at hrest ⊢ with hlarge
      · rw [ofNat_add] at hrest
        rw [show (1 : UInt32) = UInt32.ofNat 1 from rfl, hrest]
      · rw [add_zero] at hrest
        rw [hrest]
        rfl
  rw [hpair]
  exact ⟨rfl, length_numberedFlatMap hwidth n, fun pos obj hobj => drop_numberedFlatMap hwidth n hobj⟩

/-- **The large offset table** has the large offsets. -/
theorem writeLargeOffsets_eq (opts : PackIdxOption) (list : List (PackIdxEntry algo)) :
    writeLargeOffsets opts list (list.countP (isLarge opts)) =
      some ((list.filter (isLarge opts)).flatMap fun obj => putBe64 obj.offset) := by
  refine eq_flatMap_filter (fun l => by rw [writeLargeOffsets]) (fun obj l n => ?_) list
  rw [writeLargeOffsets, isLarge]
  cases needLargeOffset obj.offset opts <;> rfl

/-! ## The two formats -/

/-- The bytes of an index of version 1. -/
def ImageV1 (list : List (PackIdxEntry algo)) (file : Bytes) : Prop :=
  ∃ trailer : Bytes, trailer.length = algo.rawsz + algo.rawsz ∧
    file = writeFanout list ++ (list.flatMap (idEntry 1) ++ trailer)

/-- The bytes of an index of version 2. -/
def ImageV2 (opts : PackIdxOption) (list : List (PackIdxEntry algo)) (file : Bytes) : Prop :=
  ∃ trailer : Bytes, trailer.length = algo.rawsz + algo.rawsz ∧
    file = writeHeader 2 ++ (writeFanout list ++ (list.flatMap (fun obj => obj.oid.1) ++
      (writeCrc32 list ++ ((writeOffsets opts list 0).1 ++
        ((list.filter (isLarge opts)).flatMap (fun obj => putBe64 obj.offset) ++ trailer)))))

/-- **What is written** is an index of one of the two formats. -/
theorem exists_writeIdxFile (hash : Bytes → Oid algo) (sha1 : Oid algo)
    (hversion : opts.version = 1 ∨ opts.version = 2)
    (hids : (objects.map PackIdxEntry.oid).Nodup) (hnr : objects.length < 2 ^ 31) :
    ∃ file, writeIdxFile hash objects opts sha1 = some file ∧
      ((indexVersion opts objects = 1 ∧ ImageV1 (sortedBySha objects) file) ∨
        (indexVersion opts objects = 2 ∧ ImageV2 opts (sortedBySha objects) file)) := by
  have hlist := sortedBySha_ascending hids
  have hlength := (sortedBySha_perm objects).length_eq
  have hcount := @List.countP_le_length _ (isLarge opts) (sortedBySha objects)
  have hentries := @writeIds_eq _ _ hlist opts.strict (indexVersion opts objects) none
    fun _ _ => by simp
  have hcases : indexVersion opts objects = 1 ∨ indexVersion opts objects = 2 := by
    unfold indexVersion
    split
    · exact .inr rfl
    · exact hversion
  rw [writeIdxFile]
  dsimp only
  rw [hentries, bind_some]
  rcases hcases with hone | htwo
  · rw [hone, writeTables, if_neg (by decide), if_neg (by decide), map_some]
    generalize hash _ = checksum
    refine ⟨_, rfl, .inl ⟨rfl, sha1.1 ++ checksum.1, ?_, ?_⟩⟩
    · rw [length_append, sha1.2, checksum.2]
    · rw [nil_append, nil_append, append_assoc, append_assoc]
  obtain ⟨hnumber, -, -⟩ := writeOffsets_spec opts (sortedBySha objects) 0
  rw [zero_add] at hnumber
  have hnat : (writeOffsets opts (sortedBySha objects) 0).2.toNat =
      (sortedBySha objects).countP (isLarge opts) := by
    rw [show (0 : UInt32) = UInt32.ofNat 0 from rfl, hnumber]
    exact toNat_ofNat_of_lt' (show _ < 2 ^ 32 by omega)
  rw [htwo, writeTables, if_pos (by decide), if_pos (by decide)]
  dsimp only
  rw [hnat, writeLargeOffsets_eq, map_some, map_some]
  generalize hash _ = checksum
  refine ⟨_, rfl, .inr ⟨rfl, sha1.1 ++ checksum.1, ?_, ?_⟩⟩
  · rw [length_append, sha1.2, checksum.2]
  · simp only [append_assoc]
    rfl

/-- **What is looked up in an open index**: the objects in their order. -/
structure Reads (p : PackedGit) (list : List (PackIdxEntry algo)) : Prop where
  search : ∀ oid : Oid algo, ∃ r, bsearchPack oid p = some r ∧
    ∀ pos, r = .inl pos ↔ ∃ obj, list[pos]? = some obj ∧ obj.oid = oid
  id : ∀ n, nthPackedObjectId algo p n = list[n]?.map fun obj => obj.oid.1
  offset : ∀ n obj, list[n]? = some obj → nthPackedObjectOffset algo p n = some obj.offset

/-! ## Version 1 -/

theorem length_idEntry_one (obj : PackIdxEntry algo) : (idEntry 1 obj).length = algo.rawsz + 4 := by
  rw [idEntry, if_pos (by decide), length_append, length_putBe32, obj.oid.2, add_comm]

section V1

variable (h : ImageV1 list file)
include h hlist

/-- The table of offsets and ids is behind the fan-out table. -/
theorem ImageV1.entry (hobj : list[i]? = some obj) :
    ∃ rest, file.drop (4 * 256 + (algo.rawsz + 4) * i) =
      putBe32 obj.offset.toUInt32.toNat ++ (obj.oid.1 ++ rest) := by
  obtain ⟨trailer, -, rfl⟩ := h
  apply Exists.intro
  rw [← drop_drop, drop_left' (length_writeFanout hlist),
    drop_flatMap_append (fun obj _ => length_idEntry_one obj) hobj, idEntry, if_pos (by decide),
    append_assoc]

theorem ImageV1.id (hobj : list[i]? = some obj) :
    (file.drop (4 * 256 + ((algo.rawsz + 4) * i + 4))).take algo.rawsz = obj.oid.1 := by
  obtain ⟨rest, hrest⟩ := h.entry hlist hobj
  rw [← add_assoc, ← drop_drop, hrest, drop_left' (length_putBe32 _), take_left' obj.oid.2]

theorem ImageV1.length : file.length =
    4 * 256 + algo.rawsz + algo.rawsz + list.length * (algo.rawsz + 4) := by
  obtain ⟨trailer, htrailer, rfl⟩ := h
  rw [length_append, length_append, length_writeFanout hlist, htrailer,
    length_flatMap_of_width fun obj _ => length_idEntry_one obj, mul_comm (algo.rawsz + 4)]
  omega

variable (hlength : list.length < 2 ^ 31)
include hlength

theorem ImageV1.fanoutOf : FanoutOf list file := by
  obtain ⟨trailer, -, rfl⟩ := h
  exact fanoutOf_writeFanout hlist hlength _

/-- The first count is not the signature. -/
theorem ImageV1.not_signature : getBe32 file ≠ some packIdxSignature := by
  have hcount := @bucketCount_le_length _ (fun obj : PackIdxEntry algo => firstByte obj.oid) list 0
  have hfirst := h.fanoutOf hlist hlength 0 (by decide)
  rw [Nat.mul_zero, drop_zero] at hfirst
  rw [hfirst]
  intro heq
  have : bucketCount (fun obj => firstByte obj.oid) list 0 = 0xff744f63 := Option.some.inj heq
  omega

/-- **An index of version 1** is accepted. -/
theorem ImageV1.loadIdx_eq : loadIdx algo.rawsz file = .ok ⟨1, file, list.length⟩ := by
  have hsize := h.length hlist
  have hnot := h.not_signature hlist hlength
  rw [loadIdx, if_neg (by omega)]
  rw [if_neg hnot, if_neg fun hcon => hnot hcon.1, if_neg (by decide),
    checkFanout_of_fanoutOf (h.fanoutOf hlist hlength)]
  dsimp only
  rw [if_pos rfl, if_neg (not_not.mpr hsize)]

/-- **An index of version 1** has what was written, if the offsets fit. -/
theorem ImageV1.reads (hoffsets : ∀ obj ∈ list, obj.offset.toNat < 2 ^ 31) :
    Reads ⟨1, file, list.length⟩ list where
  search oid := by
    refine bsearchHash_eq hlist (h.fanoutOf hlist hlength) (fun i obj hobj => ?_) oid
    rw [drop_drop, add_assoc, add_comm 4]
    exact h.id hlist hobj
  id n := by
    rw [nthPackedObjectId]
    split
    · rw [getElem?_eq_none ‹_›]
      rfl
    · have hobj := getElem?_eq_getElem (Nat.lt_of_not_le ‹_›)
      rw [if_pos rfl, h.id hlist hobj, hobj]
      rfl
  offset n obj hobj := by
    obtain ⟨rest, hrest⟩ := h.entry hlist hobj
    have hlt := hoffsets obj (mem_of_getElem? hobj)
    rw [nthPackedObjectOffset]
    rw [if_pos rfl, hrest, getBe32_putBe32 (toNat_lt _), map_some, UInt64.toNat_toUInt32,
      mod_eq_of_lt (by omega), UInt64.ofNat_toNat]

end V1

/-! ## Version 2 -/

/-- The place in the large offset table. -/
theorem flag_or_and {n : UInt32} (h : n.toNat < 2 ^ 31) : (0x80000000 ||| n) &&& 0x7fffffff = n := by
  apply UInt32.toNat_inj.mp
  rw [UInt32.toNat_and, toNat_or_flag rfl h]
  change (2 ^ 31 + n.toNat) &&& (2 ^ 31 - 1) = n.toNat
  rw [and_two_pow_sub_one_eq_mod]
  omega

theorem length_ids : (list.flatMap fun obj => obj.oid.1).length = algo.rawsz * list.length :=
  length_flatMap_of_width fun obj _ => obj.oid.2

theorem length_writeCrc32 : (writeCrc32 list).length = 4 * list.length :=
  length_flatMap_of_width fun _ _ => length_putBe32 _

section V2

variable (h : ImageV2 opts list file)
include h

theorem ImageV2.header : getBe32 file = some packIdxSignature ∧ getBe32 (file.drop 4) = some 2 := by
  obtain ⟨trailer, -, rfl⟩ := h
  refine ⟨?_, ?_⟩
  · rw [writeHeader, append_assoc, getBe32_putBe32 (by decide)]
  · rw [writeHeader, append_assoc, drop_left' (length_putBe32 _), getBe32_putBe32 (by decide)]
    rfl

include hlist

/-- The places of the tables. -/
theorem ImageV2.tables : ∃ trailer : Bytes, trailer.length = algo.rawsz + algo.rawsz ∧
    (∃ rest, file.drop 8 = writeFanout list ++ rest) ∧
    (∃ rest, file.drop (4 * 256 + 8) = list.flatMap (fun obj => obj.oid.1) ++ rest) ∧
    file.drop (4 * 256 + (8 + list.length * (algo.rawsz + 4))) = (writeOffsets opts list 0).1 ++
      ((list.filter (isLarge opts)).flatMap (fun obj => putBe64 obj.offset) ++ trailer) := by
  obtain ⟨trailer, htrailer, rfl⟩ := h
  have hheader : (writeHeader 2).length = 8 := rfl
  have hfanout := length_writeFanout hlist
  refine ⟨trailer, htrailer, ⟨_, drop_left' hheader⟩, ?_, ?_⟩
  · apply Exists.intro
    rw [add_comm, ← drop_drop, drop_left' hheader, drop_left' hfanout]
  rw [show 4 * 256 + (8 + list.length * (algo.rawsz + 4)) =
      8 + (4 * 256 + (algo.rawsz * list.length + 4 * list.length)) by ring,
    ← drop_drop, drop_left' hheader, ← drop_drop, drop_left' hfanout,
    ← drop_drop, drop_left' length_ids, drop_left' length_writeCrc32]

theorem ImageV2.id (hobj : list[i]? = some obj) :
    (file.drop (4 * 256 + 8 + algo.rawsz * i)).take algo.rawsz = obj.oid.1 := by
  obtain ⟨-, -, -, ⟨rest, hrest⟩, -⟩ := h.tables hlist
  rw [← drop_drop, hrest, drop_flatMap_append (fun obj _ => obj.oid.2) hobj, take_left' obj.oid.2]

variable {pos : Nat}

/-- The word of an object in the offset table. -/
theorem ImageV2.word (hobj : list[pos]? = some obj) :
    getBe32 (file.drop (4 * 256 + (8 + list.length * (algo.rawsz + 4)) + 4 * pos)) =
      some (offsetWord opts ((list.take pos).countP (isLarge opts)) obj).toNat := by
  obtain ⟨trailer, -, -, -, hoffsets⟩ := h.tables hlist
  obtain ⟨-, hwords, hread⟩ := writeOffsets_spec opts list 0
  obtain ⟨rest, hrest⟩ := hread pos obj hobj
  obtain ⟨hpos, -⟩ := List.getElem?_eq_some_iff.mp hobj
  rw [zero_add] at hrest
  rw [← drop_drop, hoffsets]
  change getBe32 (((writeOffsets opts list (UInt32.ofNat 0)).1 ++ _).drop (4 * pos)) = _
  rw [drop_append_of_le_length (by omega), hrest, append_assoc, getBe32_putBe32 (toNat_lt _)]

/-- The large offset of an object. -/
theorem ImageV2.large (hobj : list[pos]? = some obj) (hlarge : isLarge opts obj = true) :
    getBe64 (file.drop (4 * 256 + (8 + list.length * (algo.rawsz + 4)) +
      (list.length * 4 + 8 * (list.take pos).countP (isLarge opts)))) = some obj.offset := by
  obtain ⟨trailer, -, -, -, hoffsets⟩ := h.tables hlist
  have hwords : (writeOffsets opts list 0).1.length = list.length * 4 :=
    ((writeOffsets_spec opts list 0).2.1).trans (mul_comm _ _)
  rw [← drop_drop, hoffsets, ← drop_drop, drop_left' hwords,
    drop_flatMap_append (fun obj _ => length_putBe64 _) (getElem?_filter_countP_take hobj hlarge),
    getBe64_putBe64]

theorem ImageV2.length : file.length = 8 + 4 * 256 + algo.rawsz + algo.rawsz +
    list.length * (algo.rawsz + 4 + 4) + 8 * list.countP (isLarge opts) := by
  obtain ⟨trailer, htrailer, rfl⟩ := h
  have hheader : (writeHeader 2).length = 8 := rfl
  have hlarge : ((list.filter (isLarge opts)).flatMap fun obj => putBe64 obj.offset).length =
      8 * list.countP (isLarge opts) := by
    rw [length_flatMap_of_width fun obj _ => length_putBe64 _, countP_eq_length_filter]
  have hoffsets : (writeOffsets opts list 0).1.length = 4 * list.length :=
    (writeOffsets_spec opts list 0).2.1
  simp only [length_append, hheader, length_writeFanout hlist, length_ids, length_writeCrc32,
    hoffsets, hlarge, htrailer]
  ring

variable (hlength : list.length < 2 ^ 31)
include hlength

theorem ImageV2.fanoutOf : FanoutOf list (file.drop 8) := by
  obtain ⟨-, -, ⟨rest, hrest⟩, -, -⟩ := h.tables hlist
  rw [hrest]
  exact fanoutOf_writeFanout hlist hlength rest

/-- **An index of version 2** is accepted if and only if the large offset table is not full. -/
theorem ImageV2.loadIdx_eq : loadIdx algo.rawsz file =
    if list ≠ [] ∧ list.countP (isLarge opts) = list.length then .error .wrongSizeV2
    else .ok ⟨2, file, list.length⟩ := by
  obtain ⟨hsignature, hversion⟩ := h.header
  have hsize := h.length hlist
  have hcount := @List.countP_le_length _ (isLarge opts) list
  rw [loadIdx, if_neg (by omega)]
  rw [if_pos hsignature, hversion, getD_some, if_neg (by simp), if_pos (by decide),
    checkFanout_of_fanoutOf (h.fanoutOf hlist hlength)]
  grind

/-- **The offset** of an object, whether it is large or not. -/
theorem ImageV2.offset (hobj : list[pos]? = some obj) :
    nthPackedObjectOffset algo ⟨2, file, list.length⟩ pos = some obj.offset := by
  have hsize := h.length hlist
  have hrawsz : 0 < algo.rawsz := by cases algo <;> decide
  rw [nthPackedObjectOffset]
  dsimp only
  rw [if_neg (by decide), h.word hlist hobj, bind_some, UInt32.ofNat_toNat]
  cases hlarge : isLarge opts obj with
  | false =>
    have hsmall : obj.offset.toNat < 2 ^ 31 := toNat_lt_of_not_needLargeOffset hlarge
    have hword : obj.offset.toUInt32.toNat < 2 ^ 31 := by
      rw [UInt64.toNat_toUInt32]
      omega
    have hnot : ¬ needLargeOffset obj.offset opts = true := Bool.eq_false_iff.mp hlarge
    have hflag : obj.offset.toUInt32 &&& 0x80000000 = 0 := and_flag_eq_zero rfl hword
    rw [offsetWord, if_neg hnot, if_pos hflag, toUInt64_toUInt32 (by omega)]
  | true =>
    -- the place is the number of large offsets before
    obtain ⟨hplace, -⟩ := List.getElem?_eq_some_iff.mp (getElem?_filter_countP_take hobj hlarge)
    rw [← List.countP_eq_length_filter] at hplace
    have hcount := @List.countP_le_length _ (isLarge opts) list
    have hnat : (UInt32.ofNat ((list.take pos).countP (isLarge opts))).toNat =
        (list.take pos).countP (isLarge opts) := toNat_ofNat_of_lt' (show _ < 2 ^ 32 by omega)
    have hlt : (UInt32.ofNat ((list.take pos).countP (isLarge opts))).toNat < 2 ^ 31 := by omega
    have hptr : checkPackIndexPtr ⟨2, file, list.length⟩
        (4 * 256 + (8 + list.length * (algo.rawsz + 4)) +
          (list.length * 4 + 8 * (list.take pos).countP (isLarge opts))) = true := by
      rw [checkPackIndexPtr, Bool.not_eq_true', decide_eq_false_iff_not]
      grind
    rw [offsetWord, if_pos (show needLargeOffset obj.offset opts = true from hlarge),
      if_neg (and_xor_flag rfl hlt).1, flag_or_and hlt, hnat, if_pos hptr, h.large hlist hobj hlarge]

/-- **An index of version 2** has what was written. -/
theorem ImageV2.reads : Reads ⟨2, file, list.length⟩ list where
  search oid := by
    refine bsearchHash_eq hlist (h.fanoutOf hlist hlength) (fun i obj hobj => ?_) oid
    rw [drop_drop]
    exact h.id hlist hobj
  id n := by
    rw [nthPackedObjectId]
    split
    · rw [getElem?_eq_none ‹_›]
      rfl
    · have hobj := getElem?_eq_getElem (Nat.lt_of_not_le ‹_›)
      rw [if_neg (show (2 : Nat) ≠ 1 by decide), h.id hlist hobj, hobj]
      rfl
  offset n obj hobj := h.offset hlist hlength hobj

end V2

/-! ## The index as a whole -/

/-- **Lookup is exact** in the index that is written for some objects: it can be opened, each id is
found and leads to its offset, no other id is found, the ids are enumerated in ascending order, and
version 1 is only used when the offsets fit. -/
def LookupExact (hash : Bytes → Oid algo) (objects : List (PackIdxEntry algo))
    (opts : PackIdxOption) (sha1 : Oid algo) : Prop :=
  ∃ file p, writeIdxFile hash objects opts sha1 = some file ∧ openPackIndex algo file = some p ∧
    (∀ obj ∈ objects, ∃ pos, bsearchPack obj.oid p = some (.inl pos) ∧
      nthPackedObjectOffset algo p pos = some obj.offset) ∧
    (∀ oid : Oid algo, (∀ obj ∈ objects, obj.oid ≠ oid) → findPackEntryOne oid file = some 0) ∧
    (∃ ids : List (Oid algo), ids.Pairwise (· < ·) ∧ ids.Perm (objects.map PackIdxEntry.oid) ∧
      ∀ n, nthPackedObjectId algo p n = ids[n]?.map Subtype.val) ∧
    (p.indexVersion = 1 → ∀ obj ∈ objects, obj.offset.toNat < 2 ^ 31)

variable {hash : Bytes → Oid algo} {sha1 : Oid algo}

/-- An index that is open and has the objects in their order. -/
theorem lookupExact_of_reads {p : PackedGit} (hids : (objects.map PackIdxEntry.oid).Nodup)
    (hwrite : writeIdxFile hash objects opts sha1 = some file)
    (hopen : openPackIndex algo file = some p) (hreads : Reads p (sortedBySha objects))
    (hfit : p.indexVersion = 1 → ∀ obj ∈ objects, obj.offset.toNat < 2 ^ 31) :
    LookupExact hash objects opts sha1 := by
  have hperm := sortedBySha_perm objects
  refine ⟨file, p, hwrite, hopen, fun obj hobj => ?_, fun oid hoid => ?_, ?_, hfit⟩
  · obtain ⟨pos, hpos⟩ := mem_iff_getElem?.mp (hperm.mem_iff.mpr hobj)
    obtain ⟨r, hr, hfound⟩ := hreads.search obj.oid
    refine ⟨pos, ?_, hreads.offset pos obj hpos⟩
    rw [hr, (hfound pos).mpr ⟨obj, hpos, rfl⟩]
  · obtain ⟨r, hr, hfound⟩ := hreads.search oid
    rw [findPackEntryOne, hopen]
    dsimp only
    rw [hr]
    cases r with
    | inl pos =>
      obtain ⟨obj, hobj, heq⟩ := (hfound pos).mp rfl
      exact absurd heq (hoid obj (hperm.mem_iff.mp (mem_of_getElem? hobj)))
    | inr pos => rfl
  · refine ⟨(sortedBySha objects).map PackIdxEntry.oid,
      pairwise_map.mpr (sortedBySha_ascending hids), hperm.map _, fun n => ?_⟩
    rw [hreads.id, getElem?_map, Option.map_map]
    rfl

section Whole

variable (hversion : opts.version = 1 ∨ opts.version = 2)
  (hids : (objects.map PackIdxEntry.oid).Nodup) (hnr : objects.length < 2 ^ 31)
include hversion hids hnr

/-- With version 1 every index is accepted. -/
theorem lookupExact_of_indexVersion (hone : indexVersion opts objects = 1) :
    LookupExact hash objects opts sha1 := by
  have hlist := sortedBySha_ascending hids
  have hperm := sortedBySha_perm objects
  have hlength : (sortedBySha objects).length < 2 ^ 31 := by rwa [hperm.length_eq]
  have hfit : ∀ obj ∈ objects, obj.offset.toNat < 2 ^ 31 := fun obj =>
    offset_lt_of_indexVersion (by rw [hone]; decide)
  obtain ⟨file, hwrite, ⟨-, himage⟩ | ⟨htwo, -⟩⟩ := exists_writeIdxFile hash sha1 hversion hids hnr
  · have hopen : openPackIndex algo file = some ⟨1, file, (sortedBySha objects).length⟩ := by
      rw [openPackIndex, himage.loadIdx_eq hlist hlength]
      rfl
    exact lookupExact_of_reads hids hwrite hopen
      (himage.reads hlist hlength fun obj hobj => hfit obj (hperm.mem_iff.mp hobj)) fun _ => hfit
  · rw [hone] at htwo
    exact absurd htwo (by decide)

/-- With version 2 an index is accepted if and only if the large offset table is not full. -/
theorem lookupExact_iff_of_indexVersion (htwo : indexVersion opts objects = 2) :
    LookupExact hash objects opts sha1 ↔
      objects = [] ∨ ∃ obj ∈ objects, needLargeOffset obj.offset opts = false := by
  have hlist := sortedBySha_ascending hids
  have hperm := sortedBySha_perm objects
  have hlength : (sortedBySha objects).length < 2 ^ 31 := by rwa [hperm.length_eq]
  have hfull : (sortedBySha objects ≠ [] ∧
      (sortedBySha objects).countP (isLarge opts) = (sortedBySha objects).length) ↔
      ¬ (objects = [] ∨ ∃ obj ∈ objects, needLargeOffset obj.offset opts = false) := by
    rw [countP_eq_length, not_or, ne_eq, ← length_eq_zero_iff, hperm.length_eq, length_eq_zero_iff]
    simp only [hperm.mem_iff, isLarge, not_exists, not_and, Bool.not_eq_false]
  obtain ⟨file, hwrite, ⟨hone, -⟩ | ⟨-, himage⟩⟩ := exists_writeIdxFile hash sha1 hversion hids hnr
  · rw [htwo] at hone
    exact absurd hone (by decide)
  have hload := himage.loadIdx_eq hlist hlength
  constructor
  · rintro ⟨file', p, hwrite', hopen, -⟩
    obtain rfl : file = file' := Option.some.inj (hwrite.symm.trans hwrite')
    by_contra hcon
    rw [openPackIndex, hload, if_pos (hfull.mpr hcon)] at hopen
    cases hopen
  · intro hspare
    rw [if_neg fun hcon => hfull.mp hcon hspare] at hload
    have hopen : openPackIndex algo file = some ⟨2, file, (sortedBySha objects).length⟩ := by
      rw [openPackIndex, hload]
      rfl
    exact lookupExact_of_reads hids hwrite hopen (himage.reads hlist hlength) fun hcon => by cases hcon

end Whole

/-- **Lookup in the index of a pack is exact** if and only if there are no objects or one of them
has no entry in the large offset table. -/
theorem pack_lookupExact_iff (hash : Bytes → Oid algo) (objects : List (PackIdxEntry algo))
    (opts : PackIdxOption) (sha1 : Oid algo) (hversion : opts.version = 1 ∨ opts.version = 2)
    (hids : (objects.map PackIdxEntry.oid).Nodup) (hnr : objects.length < 2 ^ 31) :
    LookupExact hash objects opts sha1 ↔
      objects = [] ∨ ∃ obj ∈ objects, needLargeOffset obj.offset opts = false := by
  by_cases htwo : indexVersion opts objects = 2
  · exact lookupExact_iff_of_indexVersion hversion hids hnr htwo
  have hone : indexVersion opts objects = 1 := by
    unfold indexVersion at htwo ⊢
    grind
  -- the last object is not large
  refine iff_of_true (lookupExact_of_indexVersion hversion hids hnr hone) ?_
  by_cases hnil : objects = []
  · exact .inl hnil
  · exact .inr (exists_not_needLargeOffset hnil htwo)

/-- `off32_limit` as in the second number of `--index-version`, with no other option. -/
def withOff32Limit (off32Limit : UInt32) : PackIdxOption := ⟨false, 2, off32Limit, []⟩

/-- The object with an id of equal bytes, at an offset. -/
def objectAt (byte : UInt8) (offset : UInt64) (h : offset.toNat < 2 ^ 63) : PackIdxEntry .sha1 :=
  ⟨⟨List.replicate 20 byte, rfl⟩, 0, offset, h⟩

/-- Three objects, the first beyond 2^32. -/
def threeObjects : List (PackIdxEntry .sha1) :=
  [objectAt 9 0x180000000 (by decide), objectAt 1 12 (by decide), objectAt 255 0x7fffffff (by decide)]

theorem pack_lookupExact_threeObjects :
    LookupExact (fun _ => Notes.nullOid .sha1) threeObjects (withOff32Limit 0x7fffffff)
      (Notes.nullOid .sha1) :=
  (pack_lookupExact_iff _ _ _ _ (.inr rfl) (by decide) (by decide)).mpr
    (.inr ⟨objectAt 1 12 (by decide), by simp [threeObjects], by decide⟩)

/-- A pack with one object, right behind its header. -/
def oneObject : List (PackIdxEntry .sha1) := [objectAt 0 12 (by decide)]

theorem nodup_oneObject : (oneObject.map PackIdxEntry.oid).Nodup := nodup_singleton _

/-- **The index of a pack with one object** cannot be opened if the limit is zero. -/
theorem pack_index_rejected : ¬ LookupExact (fun _ => Notes.nullOid .sha1) oneObject (withOff32Limit 0)
    (Notes.nullOid .sha1) := by
  rw [lookupExact_iff_of_indexVersion (.inr rfl) nodup_oneObject (by decide) (by decide)]
  decide

end GitCore.Pack
