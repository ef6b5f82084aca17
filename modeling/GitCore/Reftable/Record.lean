import GitCore.Lib.ByteOrder
import GitCore.Lib.Overlay

/-! # Reftable records

The records a reftable stores. Names are C strings, that is byte strings without a NUL byte;
object hashes have the length the table's hash function prescribes, which is the parameter
`hashSize` of the record types (`REFTABLE_HASH_SIZE_SHA1` or `REFTABLE_HASH_SIZE_SHA256`).

The source dispatches on the type of a record through a table of functions. `RecordVtable` holds
those of them that the iterators use. -/

namespace GitCore.Reftable

/-- A buffer of bytes. -/
abbrev Bytes := List UInt8

/-- A C string. -/
abbrev CStr := { bs : Bytes // (0 : UInt8) ∉ bs }

theorem zero_not_mem_nil : (0 : UInt8) ∉ ([] : Bytes) := List.not_mem_nil

/-- The sign of a bytewise comparison; a proper beginning of a string comes before it. -/
def bytesCmp (a b : Bytes) : Ordering := if a < b then .lt else if b < a then .gt else .eq

/-- The sign of `strcmp` -/
def strcmp (a b : CStr) : Ordering := bytesCmp a.val b.val

@[simp] theorem bytesCmp_eq_lt {a b : Bytes} : bytesCmp a b = .lt ↔ a < b := by
  rw [bytesCmp, threeWay_eq_cmp, cmp_eq_lt_iff]

@[simp] theorem bytesCmp_eq_gt {a b : Bytes} : bytesCmp a b = .gt ↔ b < a := by
  rw [bytesCmp, threeWay_eq_cmp, cmp_eq_gt_iff]

@[simp] theorem bytesCmp_eq_eq {a b : Bytes} : bytesCmp a b = .eq ↔ a = b := by
  rw [bytesCmp, threeWay_eq_cmp, cmp_eq_eq_iff]

/-- An object hash of `n` bytes. -/
abbrev Hash (n : Nat) := { bs : Bytes // bs.length = n }

/-- `enum reftable_error` -/
inductive ReftableError where
  /-- The code `-1`, which has no name. -/
  | unnamed
  | io
  | format
  | notExist
  | lock
  | api
  | zlib
  | emptyTable
  | refname
  | entryTooBig
  | outdated
  | outOfMemory
  /-- No code: the call releases a record that it has not initialised (`reftable_record_vtable`
  aborts on most values of its type). -/
  | undefined
deriving DecidableEq, Repr

/-- The non-negative return values of an iterator. -/
inductive IterCode where
  /-- `0`: a record was returned, or a seek found its position. -/
  | ok
  /-- A positive value: the end. -/
  | done
deriving DecidableEq, Repr

/-- `value_type` with the union it selects. -/
inductive RefValue (hashSize : Nat) where
  /-- `REFTABLE_REF_DELETION`, a tombstone that hides the ref in older tables. -/
  | deletion
  /-- `REFTABLE_REF_VAL1`, a simple ref. -/
  | val1 (value : Hash hashSize)
  /-- `REFTABLE_REF_VAL2`, a tag with its peeled hash. -/
  | val2 (value targetValue : Hash hashSize)
  /-- `REFTABLE_REF_SYMREF`, a symbolic reference. -/
  | symref (target : CStr)
deriving DecidableEq

/-- `struct reftable_ref_record` -/
structure RefRecord (hashSize : Nat) where
  /-- Name of the ref. -/
  refname : CStr
  /-- Logical timestamp at which the value was written. -/
  updateIndex : UInt64
  /-- The value. -/
  value : RefValue hashSize
deriving DecidableEq

/-- `reftable_ref_record_is_deletion` -/
def RefRecord.isDeletion {hashSize : Nat} (r : RefRecord hashSize) : Bool :=
  match r.value with
  | .deletion => true
  | _ => false

/-- The `update` member of the value of a log record. The strings are pointers that may be
`NULL`. -/
structure LogUpdate (hashSize : Nat) where
  /-- The value after the update. -/
  newHash : Hash hashSize
  /-- The value before the update. -/
  oldHash : Hash hashSize
  /-- Name of the committer. -/
  name : Option CStr
  /-- Email of the committer. -/
  email : Option CStr
  /-- Time of the update. -/
  time : UInt64
  /-- Time zone. -/
  tzOffset : Int16
  /-- The reflog message. -/
  message : Option CStr
deriving DecidableEq

/-- `struct reftable_log_record`; a record without an update is a `REFTABLE_LOG_DELETION`. -/
structure LogRecord (hashSize : Nat) where
  /-- Name of the ref. -/
  refname : CStr
  /-- Logical timestamp of the transaction. -/
  updateIndex : UInt64
  /-- The update. -/
  value : Option (LogUpdate hashSize)
deriving DecidableEq

/-- `reftable_log_record_is_deletion` -/
def LogRecord.isDeletion {hashSize : Nat} (r : LogRecord hashSize) : Bool := r.value.isNone

/-- `reftable_put_be64` -/
def putBe64 (v : UInt64) : Bytes :=
  [(v >>> 56).toUInt8, (v >>> 48).toUInt8, (v >>> 40).toUInt8, (v >>> 32).toUInt8,
    (v >>> 24).toUInt8, (v >>> 16).toUInt8, (v >>> 8).toUInt8, v.toUInt8]

/-- `reftable_log_record_key`: the name with its NUL, and the update index counted backwards. The
length is an `int` there, so that names have fewer than 2^31 - 1 bytes. -/
def LogRecord.key {hashSize : Nat} (r : LogRecord hashSize) : Bytes :=
  r.refname.val ++ 0 :: putBe64 (0xffffffffffffffff - r.updateIndex)

/-- `reftable_log_record_cmp_void`. The difference of the update indexes is returned as an
`int`, which keeps its low 32 bits. -/
def LogRecord.cmp {hashSize : Nat} (a b : LogRecord hashSize) : Ordering :=
  match strcmp a.refname b.refname with
  | .eq =>
    let d := (b.updateIndex - a.updateIndex).toUInt32.toInt32
    if d < 0 then .lt else if 0 < d then .gt else .eq
  | o => o

/-- The functions of `struct reftable_record_vtable` that iterators use. -/
structure RecordVtable (α : Type) where
  /-- The key that orders the records of a table. -/
  key : α → Bytes
  /-- The sign of the comparison of two records. -/
  cmp : α → α → Ordering
  /-- Whether the record is a tombstone. -/
  isDeletion : α → Bool

/-- `reftable_ref_record_vtable`: refs compare with `strcmp` on their names. -/
def refRecordVtable (hashSize : Nat) : RecordVtable (RefRecord hashSize) where
  key := fun r => r.refname.val
  cmp := fun a b => strcmp a.refname b.refname
  isDeletion := RefRecord.isDeletion

/-- `reftable_log_record_vtable` -/
def logRecordVtable (hashSize : Nat) : RecordVtable (LogRecord hashSize) where
  key := LogRecord.key
  cmp := LogRecord.cmp
  isDeletion := LogRecord.isDeletion

/-- A vtable whose comparison agrees with the order of its keys. -/
class RecordVtable.Keyed {α : Type} (vt : RecordVtable α) : Prop where
  /-- Records compare as their keys do. -/
  cmp_eq : ∀ a b, vt.cmp a b = bytesCmp (vt.key a) (vt.key b)

instance (hashSize : Nat) : (refRecordVtable hashSize).Keyed := ⟨fun _ _ => rfl⟩

/-- A table as its iterators show it. -/
structure SortedTable {α : Type} (vt : RecordVtable α) where
  /-- The records from first to last. -/
  records : List α
  /-- A table with an index answers a seek behind its last record with a positive value and an
  iterator that is not positioned; other tables position the iterator at the end. -/
  signalsEnd : Bool
  /-- The keys ascend strictly. -/
  sorted : Overlay.Run vt.key records

end GitCore.Reftable
