import GitCore.Reftable.Basics
import Mathlib.Data.List.TakeWhile

/-! # Encoding records

How the four kinds of records are stored in a block: `reftable_ref_record_vtable`,
`reftable_log_record_vtable`, `reftable_obj_record_vtable` and `reftable_index_record_vtable` with
the functions that the block layer uses. What is decoded from the encoding of a ref, object or index
record is the record (`RecordCodec.Lawful`). -/

namespace GitCore.Reftable

open List

/-- `struct reftable_obj_record` -/
structure ObjRecord where
  /-- The leading bytes of the object's hash. -/
  hashPrefix : Bytes
  /-- Where the blocks with refs to the object start. -/
  offsets : List UInt64
deriving DecidableEq

/-- `struct reftable_index_record` -/
structure IndexRecord where
  /-- Where the block starts. -/
  offset : UInt64
  /-- The last key in the block. -/
  lastKey : Bytes
deriving DecidableEq

/-- The functions of `struct reftable_record_vtable` that blocks use. -/
structure RecordCodec (α : Type) where
  /-- The key that orders the records of a table. -/
  key : α → Bytes
  /-- The three bits that are stored with the key. -/
  valType : α → UInt8
  /-- The encoding of the rest of the record, given how many bytes there is room for. -/
  encode : Nat → α → Except ReftableError Bytes
  /-- The record from its key, its three bits and the bytes that follow, and the bytes behind. -/
  decode : Bytes → UInt8 → Bytes → Except ReftableError (α × Bytes)

/-- A codec that restores what it has encoded. -/
class RecordCodec.Lawful {α : Type} (codec : RecordCodec α) : Prop where
  /-- The value type fits into three bits. -/
  valType_lt : ∀ r, (codec.valType r).toNat < 8
  /-- An encoding fits into the room that it was given. -/
  length_le : ∀ {room r bytes}, codec.encode room r = .ok bytes → bytes.length ≤ room
  /-- A record with a key is restored, whatever follows it. -/
  decode_encode : ∀ {room r bytes}, room < 2 ^ 32 → codec.key r ≠ [] →
    codec.encode room r = .ok bytes →
    ∀ rest, codec.decode (codec.key r) (codec.valType r) (bytes ++ rest) = .ok (r, rest)

/-- The codec restores what it has encoded of this record. -/
structure RecordCodec.Restores {α : Type} (codec : RecordCodec α) (r : α) : Prop where
  /-- The value type fits into three bits. -/
  valType_lt : (codec.valType r).toNat < 8
  /-- The record is restored, whatever follows it, if it has a key. -/
  decode_encode : ∀ {room bytes}, room < 2 ^ 32 → codec.key r ≠ [] →
    codec.encode room r = .ok bytes →
    ∀ rest, codec.decode (codec.key r) (codec.valType r) (bytes ++ rest) = .ok (r, rest)

theorem RecordCodec.restores {α : Type} (codec : RecordCodec α) [codec.Lawful] (r : α) :
    codec.Restores r :=
  ⟨Lawful.valType_lt r, Lawful.decode_encode⟩

/-! ## All or nothing -/

/-- The function writes the bytes if there is room for them and reports an entry that is too big
otherwise. -/
def Encodes (encode : Nat → Except ReftableError Bytes) (bytes : Bytes) : Prop :=
  ∀ room, encode room = if bytes.length ≤ room then .ok bytes else .error .entryTooBig

section Encodes

variable {encode : Nat → Except ReftableError Bytes} {bytes bytes' : Bytes}

/-- How an encoder goes on after a part. -/
theorem Encodes.bind (h : Encodes encode bytes) (room : Nat) {β : Type}
    (k : Bytes → Except ReftableError β) :
    (encode room >>= k) = if bytes.length ≤ room then k bytes else .error .entryTooBig := by
  rw [h room]
  split <;> rfl

/-- Two parts one behind the other. -/
theorem Encodes.append {encode' : Nat → Except ReftableError Bytes}
    (h : Encodes encode bytes) (h' : Encodes encode' bytes') :
    Encodes (fun room => do
      let n ← encode room
      let n' ← encode' (room - n.length)
      .ok (n ++ n')) (bytes ++ bytes') := by
  intro room
  dsimp only
  rw [h.bind, h'.bind, length_append]
  grind

theorem encodes_nil : Encodes (fun _ => .ok []) [] := fun _ => (if_pos (Nat.zero_le _)).symm

theorem encodes_putVarInt (value : UInt64) :
    Encodes (fun room => putVarInt room value) (varInt value) := by
  intro room
  dsimp only [putVarInt]
  split_ifs <;> first | rfl | omega

/-- What an encoder returns. -/
theorem Encodes.eq_ok (h : Encodes encode bytes) {room : Nat}
    (hok : encode room = .ok bytes') : bytes' = bytes ∧ bytes.length ≤ room := by
  rw [h room] at hok
  grind

end Encodes

/-- A codec whose encoder writes all or nothing is lawful if the decoder restores what was
written. -/
theorem RecordCodec.lawful_of_encodes {α : Type} {codec : RecordCodec α} (valueBytes : α → Bytes)
    (hvalType : ∀ r, (codec.valType r).toNat < 8)
    (hencodes : ∀ r, Encodes (fun room => codec.encode room r) (valueBytes r))
    (hdecode : ∀ r, (valueBytes r).length < 2 ^ 32 → codec.key r ≠ [] → ∀ rest,
      codec.decode (codec.key r) (codec.valType r) (valueBytes r ++ rest) = .ok (r, rest)) :
    codec.Lawful where
  valType_lt := hvalType
  length_le := by
    intro room r bytes h
    obtain ⟨rfl, hle⟩ := (hencodes r).eq_ok h
    exact hle
  decode_encode := by
    intro room r bytes hroom hkey h
    obtain ⟨rfl, hle⟩ := (hencodes r).eq_ok h
    exact hdecode r (by omega) hkey

/-! ## Strings and hashes -/

/-- The C string that a buffer holds. -/
def cstrOfBytes (bytes : Bytes) : CStr :=
  ⟨bytes.takeWhile (· ≠ 0), by
    intro h
    simpa using mem_takeWhile_imp h⟩

/-- `encode_string` -/
def encodeString (str : CStr) (room : Nat) : Except ReftableError Bytes := do
  let n ← putVarInt room (UInt64.ofNat str.val.length)
  if room - n.length < str.val.length then .error .entryTooBig
  else .ok (n ++ str.val)

/-- `decode_string` -/
def decodeString (input : Bytes) : Option (Bytes × Bytes) := do
  let (tsize, input) ← getVarInt input
  if input.length < tsize.toNat then none
  else some (input.take tsize.toNat, input.drop tsize.toNat)

/-- The first bytes as a hash, and the bytes behind it. -/
def takeHash (hashSize : Nat) (input : Bytes) : Option (Hash hashSize × Bytes) :=
  if h : hashSize ≤ input.length then
    some (⟨input.take hashSize, by simp [h]⟩, input.drop hashSize)
  else none

@[simp] theorem cstrOfBytes_val (s : CStr) : cstrOfBytes s.val = s := by
  apply Subtype.ext
  refine takeWhile_eq_self_iff.mpr ?_
  intro b hb
  exact decide_eq_true fun h => s.property (h ▸ hb)

/-- The bytes of a string. -/
def stringBytes (str : CStr) : Bytes := varInt (UInt64.ofNat str.val.length) ++ str.val

theorem encodes_encodeString (str : CStr) :
    Encodes (fun room => encodeString str room) (stringBytes str) := by
  intro room
  dsimp only [encodeString]
  rw [(encodes_putVarInt _).bind, stringBytes, length_append]
  split_ifs <;> first | rfl | omega

/-- Reading a string restores it. -/
theorem decodeString_stringBytes {str : CStr} (h : (stringBytes str).length < 2 ^ 64)
    (rest : Bytes) : decodeString (stringBytes str ++ rest) = some (str.val, rest) := by
  rw [stringBytes, length_append] at h
  have hlen : (UInt64.ofNat str.val.length).toNat = str.val.length :=
    UInt64.toNat_ofNat_of_lt (show _ < 2 ^ 64 by omega)
  unfold decodeString
  rw [stringBytes, append_assoc, getVarInt_varInt]
  simp [hlen]

@[simp] theorem takeHash_append {hashSize : Nat} (hash : Hash hashSize) (rest : Bytes) :
    takeHash hashSize (hash.val ++ rest) = some (hash, rest) := by
  obtain ⟨bytes, rfl⟩ := hash
  simp [takeHash]

/-! ## Ref records -/

section Ref

variable {hashSize : Nat}

/-- `reftable_ref_record_val_type` -/
def RefRecord.valType (r : RefRecord hashSize) : UInt8 :=
  match r.value with
  | .deletion => 0
  | .val1 _ => 1
  | .val2 _ _ => 2
  | .symref _ => 3

/-- `reftable_ref_record_encode` -/
def RefRecord.encode (room : Nat) (r : RefRecord hashSize) : Except ReftableError Bytes := do
  let n ← putVarInt room r.updateIndex
  let room := room - n.length
  match r.value with
  | .symref target =>
    let str ← encodeString target room
    .ok (n ++ str)
  | .val2 value targetValue =>
    if room < 2 * hashSize then .error .entryTooBig
    else .ok (n ++ (value.val ++ targetValue.val))
  | .val1 value =>
    if room < hashSize then .error .entryTooBig
    else .ok (n ++ value.val)
  | .deletion => .ok n

/-- The value of `reftable_ref_record_decode`. Other value types abort the program. -/
def decodeRefValue (hashSize : Nat) (valType : UInt8) (input : Bytes) :
    Except ReftableError (RefValue hashSize × Bytes) :=
  if valType = 1 then
    match takeHash hashSize input with
    | none => .error .format
    | some (value, rest) => .ok (.val1 value, rest)
  else if valType = 2 then
    match takeHash hashSize input with
    | none => .error .format
    | some (value, rest) =>
      match takeHash hashSize rest with
      | none => .error .format
      | some (targetValue, rest) => .ok (.val2 value targetValue, rest)
  else if valType = 3 then
    match decodeString input with
    | none => .error .format
    | some (target, rest) => .ok (.symref (cstrOfBytes target), rest)
  else if valType = 0 then .ok (.deletion, input)
  else .error .unnamed

/-- `reftable_ref_record_decode` -/
def RefRecord.decode (key : Bytes) (valType : UInt8) (input : Bytes) :
    Except ReftableError (RefRecord hashSize × Bytes) :=
  match getVarInt input with
  | none => .error .unnamed
  | some (updateIndex, input) => do
    let (value, rest) ← decodeRefValue hashSize valType input
    .ok (⟨cstrOfBytes key, updateIndex, value⟩, rest)

/-- `reftable_ref_record_vtable` -/
def refRecordCodec (hashSize : Nat) : RecordCodec (RefRecord hashSize) where
  key := fun r => r.refname.val
  valType := RefRecord.valType
  encode := RefRecord.encode
  decode := RefRecord.decode

/-- The bytes of a ref record behind its key. -/
def RefRecord.valueBytes (r : RefRecord hashSize) : Bytes :=
  varInt r.updateIndex ++
    match r.value with
    | .deletion => []
    | .val1 value => value.val
    | .val2 value targetValue => value.val ++ targetValue.val
    | .symref target => stringBytes target

theorem RefRecord.encodes (r : RefRecord hashSize) : Encodes r.encode r.valueBytes := by
  intro room
  obtain ⟨refname, updateIndex, value⟩ := r
  dsimp only [RefRecord.encode]
  rw [(encodes_putVarInt _).bind, RefRecord.valueBytes, length_append]
  cases value with
  | deletion => simp only [append_nil, length_nil, Nat.add_zero]
  | val1 value =>
    grind
  | val2 value targetValue =>
    grind
  | symref target =>
    simp only [(encodes_encodeString target).bind]
    split_ifs <;> first | rfl | omega

/-- What is decoded from the bytes of a ref record is the record. -/
theorem RefRecord.decode_valueBytes {r : RefRecord hashSize} (hsize : r.valueBytes.length < 2 ^ 64)
    (rest : Bytes) :
    RefRecord.decode r.refname.val r.valType (r.valueBytes ++ rest) = .ok (r, rest) := by
  obtain ⟨refname, updateIndex, value⟩ := r
  rw [RefRecord.valueBytes, length_append] at hsize
  rw [RefRecord.decode, RefRecord.valueBytes, append_assoc, getVarInt_varInt]
  rw [cstrOfBytes_val]
  cases value with
  | deletion => rfl
  | val1 value =>
    simp only [decodeRefValue, RefRecord.valType, takeHash_append]
    rfl
  | val2 value targetValue =>
    simp only [decodeRefValue, RefRecord.valType, append_assoc, takeHash_append]
    rfl
  | symref target =>
    have htarget : (stringBytes target).length < 2 ^ 64 := by dsimp only at hsize; omega
    simp only [decodeRefValue, RefRecord.valType, decodeString_stringBytes htarget, cstrOfBytes_val]
    rfl

instance (hashSize : Nat) : (refRecordCodec hashSize).Lawful := by
  refine RecordCodec.lawful_of_encodes RefRecord.valueBytes (fun r => ?_) RefRecord.encodes
    fun r hsize _ => RefRecord.decode_valueBytes (by omega)
  change r.valType.toNat < 8
  unfold RefRecord.valType
  split <;> decide

end Ref

/-! ## Object records -/

/-- `reftable_obj_record_val_type` -/
def ObjRecord.valType (r : ObjRecord) : UInt8 :=
  if 0 < r.offsets.length ∧ r.offsets.length < 8 then UInt8.ofNat r.offsets.length else 0

/-- The loop of `reftable_obj_record_encode` over the offsets behind the first one. -/
def encodeDeltas : Nat → UInt64 → List UInt64 → Except ReftableError Bytes
  | _, _, [] => .ok []
  | room, last, offset :: offsets => do
    let n ← putVarInt room (offset - last)
    let rest ← encodeDeltas (room - n.length) offset offsets
    .ok (n ++ rest)

/-- The offsets of `reftable_obj_record_encode`. -/
def encodeOffsets (room : Nat) : List UInt64 → Except ReftableError Bytes
  | [] => .ok []
  | first :: offsets => do
    let n ← putVarInt room first
    let deltas ← encodeDeltas (room - n.length) first offsets
    .ok (n ++ deltas)

/-- The count of `reftable_obj_record_encode`, unless the value type has it. -/
def encodeCount (room count : Nat) : Except ReftableError Bytes :=
  if count = 0 ∨ 8 ≤ count then putVarInt room (UInt64.ofNat count) else .ok []

/-- `reftable_obj_record_encode` -/
def ObjRecord.encode (room : Nat) (r : ObjRecord) : Except ReftableError Bytes := do
  let count ← encodeCount room r.offsets.length
  let offsets ← encodeOffsets (room - count.length) r.offsets
  .ok (count ++ offsets)

/-- The loop of `reftable_obj_record_decode` over the offsets behind the first one. -/
def decodeDeltas : Nat → UInt64 → Bytes → Except ReftableError (List UInt64 × Bytes)
  | 0, _, input => .ok ([], input)
  | count + 1, last, input =>
    match getVarInt input with
    | none => .error .unnamed
    | some (delta, input) => do
      let (offsets, rest) ← decodeDeltas count (delta + last) input
      .ok ((delta + last) :: offsets, rest)

/-- The offsets of `reftable_obj_record_decode`. -/
def decodeOffsets (count : Nat) (input : Bytes) : Except ReftableError (List UInt64 × Bytes) :=
  match count with
  | 0 => .ok ([], input)
  | count + 1 =>
    match getVarInt input with
    | none => .error .unnamed
    | some (first, input) => do
      let (offsets, rest) ← decodeDeltas count first input
      .ok (first :: offsets, rest)

/-- `reftable_obj_record_decode`. There is no room for an empty prefix: `reftable_malloc` returns
`NULL` when no bytes are asked for. -/
def ObjRecord.decode (key : Bytes) (valType : UInt8) (input : Bytes) :
    Except ReftableError (ObjRecord × Bytes) :=
  if key = [] then .error .outOfMemory
  else
    match if valType = 0 then getVarInt input else some (valType.toUInt64, input) with
    | none => .error .unnamed
    | some (count, input) => do
      let (offsets, rest) ← decodeOffsets count.toNat input
      .ok (⟨key, offsets⟩, rest)

/-- `reftable_obj_record_vtable` -/
def objRecordCodec : RecordCodec ObjRecord where
  key := ObjRecord.hashPrefix
  valType := ObjRecord.valType
  encode := ObjRecord.encode
  decode := ObjRecord.decode

/-- The differences of neighbouring offsets. -/
def deltaBytes : UInt64 → List UInt64 → Bytes
  | _, [] => []
  | last, offset :: offsets => varInt (offset - last) ++ deltaBytes offset offsets

/-- The bytes of an object record behind its key: the number of offsets, unless the value type has
it, and the offsets. -/
def ObjRecord.valueBytes (r : ObjRecord) : Bytes :=
  (if r.offsets.length = 0 ∨ 8 ≤ r.offsets.length then varInt (UInt64.ofNat r.offsets.length)
    else []) ++ deltaBytes 0 r.offsets

theorem encodes_encodeDeltas (last : UInt64) (offsets : List UInt64) :
    Encodes (fun room => encodeDeltas room last offsets) (deltaBytes last offsets) := by
  induction offsets generalizing last with
  | nil => exact encodes_nil
  | cons offset offsets ih => exact (encodes_putVarInt _).append (ih offset)

theorem encodes_encodeOffsets (offsets : List UInt64) :
    Encodes (fun room => encodeOffsets room offsets) (deltaBytes 0 offsets) := by
  cases offsets with
  | nil => exact encodes_nil
  | cons first offsets =>
    rw [deltaBytes, UInt64.sub_zero]
    exact (encodes_putVarInt first).append (encodes_encodeDeltas first offsets)

theorem ObjRecord.encodes (r : ObjRecord) : Encodes r.encode r.valueBytes := by
  have hcount : Encodes (fun room => encodeCount room r.offsets.length)
      (if r.offsets.length = 0 ∨ 8 ≤ r.offsets.length then varInt (UInt64.ofNat r.offsets.length)
        else []) := by
    intro room
    dsimp only [encodeCount]
    split_ifs with h₁ h₂ h₂
    · exact (encodes_putVarInt _ room).trans (if_pos h₂)
    · exact (encodes_putVarInt _ room).trans (if_neg h₂)
    · rfl
    · exact absurd (Nat.zero_le _) h₂
  exact hcount.append (encodes_encodeOffsets r.offsets)

theorem decodeDeltas_deltaBytes (last : UInt64) (offsets : List UInt64) (rest : Bytes) :
    decodeDeltas offsets.length last (deltaBytes last offsets ++ rest) = .ok (offsets, rest) := by
  induction offsets generalizing last with
  | nil => rfl
  | cons offset offsets ih =>
    rw [deltaBytes, append_assoc, length_cons, decodeDeltas, getVarInt_varInt]
    dsimp only
    rw [UInt64.sub_add_cancel, ih]
    rfl

theorem decodeOffsets_deltaBytes (offsets : List UInt64) (rest : Bytes) :
    decodeOffsets offsets.length (deltaBytes 0 offsets ++ rest) = .ok (offsets, rest) := by
  cases offsets with
  | nil => rfl
  | cons first offsets =>
    rw [deltaBytes, UInt64.sub_zero, append_assoc, length_cons, decodeOffsets, getVarInt_varInt]
    dsimp only
    rw [decodeDeltas_deltaBytes]
    rfl

theorem length_le_deltaBytes (last : UInt64) (offsets : List UInt64) :
    offsets.length ≤ (deltaBytes last offsets).length := by
  induction offsets generalizing last with
  | nil => exact le_rfl
  | cons offset offsets ih =>
    have hpos := length_pos_iff.mpr (varInt_ne_nil (offset - last))
    have hle := ih offset
    rw [deltaBytes, length_append, length_cons]
    omega

/-- What is decoded from the bytes of an object record is the record. The number of offsets is in
the value type or in the bytes. -/
theorem ObjRecord.decode_valueBytes {r : ObjRecord} (hsize : r.valueBytes.length < 2 ^ 64)
    (hne : r.hashPrefix ≠ []) (rest : Bytes) :
    ObjRecord.decode r.hashPrefix r.valType (r.valueBytes ++ rest) = .ok (r, rest) := by
  have hcount : (UInt64.ofNat r.offsets.length).toNat = r.offsets.length := by
    have hle := length_le_deltaBytes 0 r.offsets
    rw [ObjRecord.valueBytes, length_append] at hsize
    exact UInt64.toNat_ofNat_of_lt' (show _ < 2 ^ 64 by omega)
  rw [ObjRecord.decode, if_neg hne, ObjRecord.valueBytes, append_assoc]
  by_cases hcond : r.offsets.length = 0 ∨ 8 ≤ r.offsets.length
  · have htype : r.valType = 0 := if_neg (by omega)
    rw [if_pos hcond, if_pos htype, getVarInt_varInt]
    dsimp only
    rw [hcount, decodeOffsets_deltaBytes]
    rfl
  · have htype : r.valType = UInt8.ofNat r.offsets.length := if_pos (by omega)
    have hall : ∀ n < 8, n ≠ 0 → UInt8.ofNat n ≠ 0 ∧ (UInt8.ofNat n).toUInt64 = UInt64.ofNat n := by
      decide
    obtain ⟨hzero, heq⟩ := hall r.offsets.length (by omega) (by omega)
    rw [if_neg hcond, htype, if_neg hzero, heq, nil_append]
    dsimp only
    rw [hcount, decodeOffsets_deltaBytes]
    rfl

instance : objRecordCodec.Lawful := by
  refine RecordCodec.lawful_of_encodes ObjRecord.valueBytes (fun r => ?_) ObjRecord.encodes
    fun r hsize hkey => ObjRecord.decode_valueBytes (by omega) hkey
  change r.valType.toNat < 8
  unfold ObjRecord.valType
  split
  · rw [UInt8.toNat_ofNat']
    omega
  · decide

/-! ## Index records -/

/-- `reftable_index_record_encode` -/
def IndexRecord.encode (room : Nat) (r : IndexRecord) : Except ReftableError Bytes :=
  putVarInt room r.offset

/-- `reftable_index_record_decode` -/
def IndexRecord.decode (key : Bytes) (_valType : UInt8) (input : Bytes) :
    Except ReftableError (IndexRecord × Bytes) :=
  match getVarInt input with
  | none => .error .unnamed
  | some (offset, rest) => .ok (⟨offset, key⟩, rest)

/-- `reftable_index_record_vtable` -/
def indexRecordCodec : RecordCodec IndexRecord where
  key := IndexRecord.lastKey
  valType := fun _ => 0
  encode := IndexRecord.encode
  decode := IndexRecord.decode

instance : indexRecordCodec.Lawful := by
  refine RecordCodec.lawful_of_encodes (fun r => varInt r.offset) (fun r => ?_)
    (fun r => encodes_putVarInt r.offset) fun r _ _ rest => ?_
  · exact (by decide : (0 : UInt8).toNat < 8)
  · change IndexRecord.decode r.lastKey 0 _ = _
    rw [IndexRecord.decode, getVarInt_varInt]

/-! ## Log records -/

section Log

variable {hashSize : Nat}

/-- A string that may be `NULL`, which is stored as the empty string. -/
def orEmpty (str : Option CStr) : CStr := str.getD ⟨[], not_mem_nil⟩

/-- `reftable_log_record_val_type` -/
def LogRecord.valType (r : LogRecord hashSize) : UInt8 := if r.isDeletion then 0 else 1

/-- `reftable_log_record_encode` -/
def LogRecord.encode (room : Nat) (r : LogRecord hashSize) : Except ReftableError Bytes :=
  match r.value with
  | none => .ok []
  | some update =>
    if room < 2 * hashSize then .error .entryTooBig
    else do
      let room := room - 2 * hashSize
      let name ← encodeString (orEmpty update.name) room
      let room := room - name.length
      let email ← encodeString (orEmpty update.email) room
      let room := room - email.length
      let time ← putVarInt room update.time
      let room := room - time.length
      if room < 2 then .error .entryTooBig
      else do
        let message ← encodeString (orEmpty update.message) (room - 2)
        .ok (update.oldHash.val ++ update.newHash.val ++ name ++ email ++ time ++
          putBe16 update.tzOffset.toUInt16.toNat ++ message)

/-- The update of `reftable_log_record_decode`. -/
def decodeLogUpdate (hashSize : Nat) (input : Bytes) : Option (LogUpdate hashSize × Bytes) := do
  let (oldHash, input) ← takeHash hashSize input
  let (newHash, input) ← takeHash hashSize input
  let (name, input) ← decodeString input
  let (email, input) ← decodeString input
  let (time, input) ← getVarInt input
  let tzOffset ← getBe16 input
  let (message, input) ← decodeString (input.drop 2)
  some (⟨newHash, oldHash, some (cstrOfBytes name), some (cstrOfBytes email), time,
    (UInt16.ofNat tzOffset).toInt16, some (cstrOfBytes message)⟩, input)

/-- `reftable_log_record_decode`. A type that is neither a deletion nor an update is read as an
update. -/
def LogRecord.decode (key : Bytes) (valType : UInt8) (input : Bytes) :
    Except ReftableError (LogRecord hashSize × Bytes) :=
  if key.length ≤ 9 ∨ key[key.length - 9]? ≠ some 0 then .error .format
  else
    match getBe64 (key.drop (key.length - 8)) with
    | none => .error .format
    | some ts =>
      let refname := cstrOfBytes (key.take (key.length - 8))
      let updateIndex := 0xffffffffffffffff - ts
      if valType = 0 then .ok (⟨refname, updateIndex, none⟩, input)
      else
        match decodeLogUpdate hashSize input with
        | none => .error .format
        | some (update, rest) => .ok (⟨refname, updateIndex, some update⟩, rest)

/-- `reftable_log_record_vtable` -/
def logRecordCodec (hashSize : Nat) : RecordCodec (LogRecord hashSize) where
  key := LogRecord.key
  valType := LogRecord.valType
  encode := LogRecord.encode
  decode := LogRecord.decode

end Log

end GitCore.Reftable
