import GitCore.Lib.BigEndian
import GitCore.Lib.PrefixOrder
import GitCore.Reftable.Block

/-! # Comparing records

Records are compared by functions that do not assemble their keys. -/

namespace GitCore.Reftable

open List

variable {hashSize : Nat}

/-! ## The code -/

/-- `struct reftable_record` -/
inductive Record (hashSize : Nat) where
  | ref (r : RefRecord hashSize)
  | log (r : LogRecord hashSize)
  | obj (r : ObjRecord)
  | index (r : IndexRecord)

/-- The member `type`. -/
def Record.type : Record hashSize → BlockType
  | .ref _ => .ref
  | .log _ => .log
  | .obj _ => .obj
  | .index _ => .index

/-- `reftable_record_key` -/
def Record.key : Record hashSize → Bytes
  | .ref r => r.refname.val
  | .log r => r.key
  | .obj r => r.hashPrefix
  | .index r => r.lastKey

/-- Why a comparison has no result. -/
inductive CmpFailure where
  /-- The return value `-1`: records of different types. -/
  | types
  /-- A byte beyond a key is read. -/
  | outOfBounds
deriving DecidableEq

/-- The sign of `memcmp` on `n` bytes, which both sides must have. -/
def memcmp (a b : Bytes) (n : Nat) : Except CmpFailure Ordering :=
  if a.length < n ∨ b.length < n then .error .outOfBounds
  else .ok (bytesCmp (a.take n) (b.take n))

/-- The sign of `reftable_buf_cmp` -/
def bufCmp (a b : Bytes) : Except CmpFailure Ordering :=
  let len := if a.length < b.length then a.length else b.length
  match memcmp a b len with
  | .error e => .error e
  | .ok .eq => .ok (if a.length < b.length then .lt else if a.length ≠ b.length then .gt else .eq)
  | .ok o => .ok o

/-- `reftable_obj_record_cmp_void`: as many bytes are compared as the longer prefix has. -/
def ObjRecord.cmp (a b : ObjRecord) : Except CmpFailure Ordering :=
  let len := if a.hashPrefix.length > b.hashPrefix.length then a.hashPrefix.length
    else b.hashPrefix.length
  match memcmp a.hashPrefix b.hashPrefix len with
  | .error e => .error e
  | .ok .eq =>
    let d := (a.hashPrefix.length : Int) - b.hashPrefix.length
    .ok (if d < 0 then .lt else if 0 < d then .gt else .eq)
  | .ok o => .ok o

/-- `reftable_record_cmp` -/
def reftableRecordCmp : Record hashSize → Record hashSize → Except CmpFailure Ordering
  | .ref a, .ref b => .ok (strcmp a.refname b.refname)
  | .log a, .log b => .ok (a.cmp b)
  | .obj a, .obj b => a.cmp b
  | .index a, .index b => bufCmp a.lastKey b.lastKey
  | _, _ => .error .types

/-! ## Buffers -/

/-- A proper beginning comes first. -/
theorem lt_of_take_eq {a b : Bytes} (hlen : a.length < b.length) (h : b.take a.length = a) : a < b :=
  lt_of_le_of_ne (prefix_le (prefix_iff_eq_take.mpr h.symm)) fun heq => by
    rw [heq] at hlen
    exact lt_irrefl _ hlen

/-- **`reftable_buf_cmp`** compares byte by byte and reads nothing beyond either buffer. -/
theorem bufCmp_eq (a b : Bytes) : bufCmp a b = .ok (bytesCmp a b) := by
  unfold bufCmp
  dsimp only
  generalize hn : (if a.length < b.length then a.length else b.length) = n
  have hle : n ≤ a.length ∧ n ≤ b.length := by
    split at hn <;> omega
  rw [memcmp, if_neg (by omega)]
  cases hcmp : bytesCmp (a.take n) (b.take n) with
  | lt =>
    rw [bytesCmp_eq_lt] at hcmp
    rw [bytesCmp_eq_lt.mpr (lt_of_take_lt hcmp)]
  | gt =>
    rw [bytesCmp_eq_gt] at hcmp
    rw [bytesCmp_eq_gt.mpr (lt_of_take_lt hcmp)]
  | eq =>
    -- one buffer is the beginning of the other
    rw [bytesCmp_eq_eq] at hcmp
    rcases lt_trichotomy a.length b.length with hlt | heq | hgt
    · rw [if_pos hlt] at hn
      rw [← hn, take_length] at hcmp
      rw [bytesCmp_eq_lt.mpr (lt_of_take_eq hlt hcmp.symm)]
      exact congrArg _ (if_pos hlt)
    · rw [if_neg (by omega)] at hn
      rw [← hn, ← heq, take_length, heq, take_length] at hcmp
      rw [bytesCmp_eq_eq.mpr hcmp]
      simp [hcmp]
    · rw [if_neg (by omega)] at hn
      rw [← hn, take_length] at hcmp
      rw [bytesCmp_eq_gt.mpr (lt_of_take_eq hgt hcmp)]
      simp [hgt.ne', hgt.le.not_gt]

/-! ## Object records -/

/-- **Prefixes of one length** are compared within their bounds; of two lengths they are not. -/
theorem ObjRecord.cmp_agrees_iff (a b : ObjRecord) :
    a.cmp b = .ok (bytesCmp a.hashPrefix b.hashPrefix) ↔ a.hashPrefix.length = b.hashPrefix.length := by
  unfold ObjRecord.cmp
  dsimp only
  constructor
  · intro h
    by_contra hne
    rw [memcmp, if_pos (by split <;> omega)] at h
    cases h
  intro heq
  have htake : b.hashPrefix.take a.hashPrefix.length = b.hashPrefix := by
    rw [heq, take_length]
  rw [if_neg (by omega), ← heq, memcmp, if_neg (by omega), take_length, htake]
  cases hcmp : bytesCmp a.hashPrefix b.hashPrefix with
  | lt | gt => rfl
  | eq => simp

/-! ## Log records -/

/-- What is read from eight bytes is their number. -/
theorem getBe64_eq_beNat (p0 p1 p2 p3 p4 p5 p6 p7 : UInt8) :
    getBe64 [p0, p1, p2, p3, p4, p5, p6, p7] =
      some (UInt64.ofNat (beNat [p0, p1, p2, p3, p4, p5, p6, p7])) := by
  simp only [getBe64, beNat, length_cons, length_nil, Nat.reduceAdd, Nat.reducePow]
  refine congrArg (fun n => some (UInt64.ofNat n)) ?_
  omega

theorem beNat_putBe64 (v : UInt64) : beNat (putBe64 v) = v.toNat := by
  have hget := getBe64_putBe64 v []
  have hlt : beNat (putBe64 v) < 2 ^ 64 := by
    have := beNat_lt (putBe64 v)
    rw [length_putBe64] at this
    omega
  have hnum : UInt64.ofNat (beNat (putBe64 v)) = v :=
    Option.some.inj ((getBe64_eq_beNat _ _ _ _ _ _ _ _).symm.trans hget)
  have hnat := congrArg UInt64.toNat hnum
  rwa [UInt64.toNat_ofNat_of_lt' hlt] at hnat

/-- Big-endian numbers are ordered as numbers. -/
theorem putBe64_lt_iff {v w : UInt64} : putBe64 v < putBe64 w ↔ v.toNat < w.toNat := by
  rw [lt_iff_beNat_lt ((length_putBe64 v).trans (length_putBe64 w).symm), beNat_putBe64,
    beNat_putBe64]

/-- The NUL keeps the order of the names. -/
theorem append_zero_lt {a b : CStr} (h : a.val < b.val) (s t : Bytes) :
    a.val ++ 0 :: s < b.val ++ 0 :: t := by
  by_cases hpre : a.val <+: b.val
  · obtain ⟨rest, hrest⟩ := hpre
    cases rest with
    | nil =>
      rw [append_nil] at hrest
      exact absurd hrest h.ne
    | cons c rest =>
      -- the byte behind the beginning is not the NUL
      have hc : c ≠ 0 := fun hc => b.property (by rw [← hrest, hc]; simp)
      rw [← hrest, append_assoc, append_lt_append_left_iff, cons_append, cons_lt_cons_iff]
      exact .inl (UInt8.pos_iff_ne_zero.mpr hc)
  · exact append_lt_append_of_diverge h hpre _ _

/-- Log keys are ordered by name, -/
theorem bytesCmp_logKey_of_ne {a b : LogRecord hashSize} (h : a.refname ≠ b.refname) :
    bytesCmp a.key b.key = strcmp a.refname b.refname := by
  unfold strcmp
  cases hcmp : bytesCmp a.refname.val b.refname.val with
  | lt => exact bytesCmp_eq_lt.mpr (append_zero_lt (bytesCmp_eq_lt.mp hcmp) _ _)
  | gt => exact bytesCmp_eq_gt.mpr (append_zero_lt (bytesCmp_eq_gt.mp hcmp) _ _)
  | eq => exact absurd (Subtype.ext (bytesCmp_eq_eq.mp hcmp)) h

/-- and for one name the newest comes first. -/
theorem logKey_lt_iff {a b : LogRecord hashSize} (h : a.refname = b.refname) :
    a.key < b.key ↔ b.updateIndex.toNat < a.updateIndex.toNat := by
  have hsub : ∀ v : UInt64, (0xffffffffffffffff - v).toNat = 2 ^ 64 - 1 - v.toNat := by
    intro v
    have hv := v.toNat_lt
    rw [UInt64.toNat_sub_of_le _ _ (UInt64.le_iff_toNat_le.mpr ?_)]
    · rfl
    · change v.toNat ≤ 2 ^ 64 - 1
      omega
  have ha := a.updateIndex.toNat_lt
  rw [LogRecord.key, LogRecord.key, h, append_lt_append_left_iff, cons_lt_cons_iff,
    putBe64_lt_iff, hsub, hsub]
  constructor
  · rintro (hlt | ⟨-, hlt⟩)
    · exact absurd hlt (lt_irrefl _)
    · omega
  · exact fun hlt => .inr ⟨rfl, by omega⟩

/-- The sign of an `int` of 32 bits. -/
theorem toInt32_sign (u : UInt32) :
    (u.toInt32 < 0 ↔ 2 ^ 31 ≤ u.toNat) ∧ (0 < u.toInt32 ↔ 0 < u.toNat ∧ u.toNat < 2 ^ 31) := by
  have hlt := u.toNat_lt
  have hint : u.toInt32.toInt = if 2 * u.toNat < 2 ^ 32 then (u.toNat : Int) else u.toNat - 2 ^ 32 :=
    BitVec.toInt_eq_toNat_cond _
  constructor
  · rw [Int32.lt_iff_toInt_lt, hint]
    change (if 2 * u.toNat < 2 ^ 32 then (u.toNat : Int) else u.toNat - 2 ^ 32) < 0 ↔ _
    split <;> omega
  · rw [Int32.lt_iff_toInt_lt, hint]
    change 0 < (if 2 * u.toNat < 2 ^ 32 then (u.toNat : Int) else u.toNat - 2 ^ 32) ↔ _
    split <;> omega

/-- **Update indexes whose difference keeps its sign** in 32 bits. -/
def Distinguishable (a b : UInt64) : Prop :=
  a = b ∨
    a.toNat < b.toNat ∧ 0 < (b.toNat - a.toNat) % 2 ^ 32 ∧ (b.toNat - a.toNat) % 2 ^ 32 < 2 ^ 31 ∨
    b.toNat < a.toNat ∧ 0 < (a.toNat - b.toNat) % 2 ^ 32 ∧ (a.toNat - b.toNat) % 2 ^ 32 ≤ 2 ^ 31

/-- The difference in 32 bits has the right sign. -/
theorem sign_agrees_iff {a b d : Nat} (ha : a < 2 ^ 64) (hb : b < 2 ^ 64)
    (hd : d = (2 ^ 64 - a + b) % 2 ^ 64 % 2 ^ 32) :
    ((if 2 ^ 31 ≤ d then Ordering.lt else if 0 < d ∧ d < 2 ^ 31 then .gt else .eq) =
      if b < a then .lt else if a < b then .gt else .eq) ↔
    a = b ∨ a < b ∧ 0 < (b - a) % 2 ^ 32 ∧ (b - a) % 2 ^ 32 < 2 ^ 31 ∨
      b < a ∧ 0 < (a - b) % 2 ^ 32 ∧ (a - b) % 2 ^ 32 ≤ 2 ^ 31 := by
  rcases lt_trichotomy a b with h | rfl | h
  · obtain rfl : d = (b - a) % 2 ^ 32 := by omega
    rw [show (if b < a then Ordering.lt else if a < b then .gt else .eq) = .gt by
      rw [if_neg (by omega), if_pos h]]
    generalize (b - a) % 2 ^ 32 = d
    split_ifs <;> simp only [false_iff, true_iff] <;> omega
  · obtain rfl : d = 0 := by omega
    simp
  · have hd' : d = (2 ^ 32 - (a - b) % 2 ^ 32) % 2 ^ 32 := by omega
    have hlt : (a - b) % 2 ^ 32 < 2 ^ 32 := Nat.mod_lt _ (by decide)
    rw [hd', show (if b < a then Ordering.lt else if a < b then .gt else .eq) = .lt from if_pos h]
    generalize (a - b) % 2 ^ 32 = d at hlt
    split_ifs <;> simp only [false_iff, true_iff] <;> omega

/-- Log records are compared as their keys if the update indexes can be told apart. -/
theorem LogRecord.cmp_agrees_iff (a b : LogRecord hashSize) :
    a.cmp b = bytesCmp a.key b.key ↔
      a.refname ≠ b.refname ∨ Distinguishable a.updateIndex b.updateIndex := by
  by_cases hname : a.refname = b.refname
  · have hstr : strcmp a.refname b.refname = .eq := by rw [hname, strcmp, bytesCmp_eq_eq]
    have hab := a.updateIndex.toNat_lt
    have hbb := b.updateIndex.toNat_lt
    obtain ⟨hneg, hpos⟩ := toInt32_sign (b.updateIndex - a.updateIndex).toUInt32
    have hdiff : (b.updateIndex - a.updateIndex).toUInt32.toNat =
        (2 ^ 64 - a.updateIndex.toNat + b.updateIndex.toNat) % 2 ^ 64 % 2 ^ 32 := by
      rw [UInt64.toNat_toUInt32, UInt64.toNat_sub]
    have hlt := logKey_lt_iff hname
    have hgt := logKey_lt_iff hname.symm
    rw [LogRecord.cmp, hstr, bytesCmp]
    simp only [hneg, hpos, hlt, hgt, Distinguishable, hname, ne_eq, not_true, false_or]
    rw [← UInt64.toNat_inj]
    exact sign_agrees_iff hab hbb hdiff
  · rw [bytesCmp_logKey_of_ne hname, LogRecord.cmp]
    refine iff_of_true ?_ (.inl hname)
    cases hstr : strcmp a.refname b.refname with
    | lt | gt => rfl
    | eq => exact absurd (Subtype.ext (bytesCmp_eq_eq.mp hstr)) hname

/-! ## All records -/

/-- **Records that are compared rightly**: log records with update indexes that can be told apart,
and object records with prefixes of one length. -/
def Record.Comparable : Record hashSize → Record hashSize → Prop
  | .log a, .log b => a.refname ≠ b.refname ∨ Distinguishable a.updateIndex b.updateIndex
  | .obj a, .obj b => a.hashPrefix.length = b.hashPrefix.length
  | _, _ => True

/-- **Comparing records** of one type agrees with the order of their keys, and stays within the
keys, if and only if they are comparable. -/
theorem reftableRecordCmp_agrees_iff (a b : Record hashSize) :
    (a.type = b.type → reftableRecordCmp a b = bufCmp a.key b.key) ↔ Record.Comparable a b := by
  have hok : ∀ o o' : Ordering, (Except.ok o : Except CmpFailure Ordering) = .ok o' ↔ o = o' :=
    fun o o' => ⟨Except.ok.inj, congrArg _⟩
  rw [bufCmp_eq]
  cases a with
  | ref a => cases b <;> simp [Record.type, Record.Comparable, reftableRecordCmp, Record.key, strcmp]
  | log a =>
    cases b with
    | log b =>
      rw [reftableRecordCmp, hok, Record.key, Record.key, LogRecord.cmp_agrees_iff]
      exact ⟨fun h => h rfl, fun h _ => h⟩
    | _ => simp [Record.type, Record.Comparable]
  | obj a =>
    cases b with
    | obj b =>
      rw [reftableRecordCmp, Record.key, Record.key, ObjRecord.cmp_agrees_iff]
      exact ⟨fun h => h rfl, fun h _ => h⟩
    | _ => simp [Record.type, Record.Comparable]
  | index a =>
    cases b <;> simp [Record.type, Record.Comparable, reftableRecordCmp, Record.key, bufCmp_eq]

theorem zero_not_mem_name : (0 : UInt8) ∉ ([0x61] : Bytes) := by decide

/-- A deletion of the log of the ref `a`. -/
def logDeletion (updateIndex : UInt64) : LogRecord 20 := ⟨⟨[0x61], zero_not_mem_name⟩, updateIndex, none⟩

/-- **Two comparisons that go wrong**: log records whose update indexes are 2^32 apart compare as
equal although the keys differ, and for two prefixes of different lengths a byte beyond the shorter
one is read. -/
theorem reftableRecordCmp_disagrees :
    (reftableRecordCmp (.log (logDeletion 0)) (.log (logDeletion 0x100000000)) = .ok .eq ∧
      bufCmp (logDeletion 0).key (logDeletion 0x100000000).key = .ok .gt) ∧
    reftableRecordCmp (.obj ⟨[1], []⟩ : Record 20) (.obj ⟨[1, 2], []⟩) = .error .outOfBounds := by
  decide

end GitCore.Reftable
