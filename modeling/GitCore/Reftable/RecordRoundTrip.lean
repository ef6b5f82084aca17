import GitCore.Reftable.BlockRoundTrip
import GitCore.Reftable.RecordCmp

/-! # Reading back a record

A record is stored as its key, of which the part shared with the key before it is left out, and the
encoding of the rest. Here the bytes are given without regard to the room for them
(`Record.valueBytes`): an encoder writes them all or reports that they do not fit (`Encodes`).

A decoder is given a record to fill (`Slot`), whose buffers and strings it uses again. What it
leaves there, read as a record, is the same for every slot (`Slot.decode_record`). -/

namespace GitCore.Reftable

open Option List

variable {hashSize : Nat} (r : LogRecord hashSize)

/-! ## The code -/

/-- `reftable_record_val_type` -/
def Record.valType : Record hashSize → UInt8
  | .ref r => r.valType
  | .log r => r.valType
  | .obj r => r.valType
  | .index _ => 0

/-- `reftable_record_encode` -/
def Record.encode (room : Nat) : Record hashSize → Except ReftableError Bytes
  | .ref r => r.encode room
  | .log r => r.encode room
  | .obj r => r.encode room
  | .index r => r.encode room

/-- A key and a record one behind the other, as `block_writer_add` stores them. -/
def encodeEntry (room : Nat) (prevKey : Bytes) (r : Record hashSize) :
    Except ReftableError Bytes := do
  let (key, _) ← encodeKey room prevKey r.key r.valType
  let value ← r.encode (room - key.length)
  .ok (key ++ value)

/-- `null_streq` -/
def nullStreq (a b : Option CStr) : Bool := orEmpty a == orEmpty b

/-- `reftable_ref_record_equal` -/
def RefRecord.equal (a b : RefRecord hashSize) : Bool :=
  nullStreq (some a.refname) (some b.refname) && a.updateIndex == b.updateIndex &&
    match a.value, b.value with
    | .symref s, .symref t => s == t
    | .val2 v t, .val2 v' t' => v == v' && t == t'
    | .val1 v, .val1 v' => v == v'
    | .deletion, .deletion => true
    | _, _ => false

/-- `reftable_log_record_equal` -/
def LogRecord.equal (a b : LogRecord hashSize) : Bool :=
  nullStreq (some a.refname) (some b.refname) && a.updateIndex == b.updateIndex &&
    match a.value, b.value with
    | none, none => true
    | some u, some v =>
      nullStreq u.name v.name && u.time == v.time && u.tzOffset == v.tzOffset &&
        nullStreq u.email v.email && nullStreq u.message v.message &&
        u.oldHash == v.oldHash && u.newHash == v.newHash
    | _, _ => false

/-- `reftable_obj_record_equal_void` -/
def ObjRecord.equal (a b : ObjRecord) : Bool :=
  if a.hashPrefix.length ≠ b.hashPrefix.length ∨ a.offsets.length ≠ b.offsets.length then false
  else a.hashPrefix == b.hashPrefix && a.offsets == b.offsets

/-- `reftable_index_record_equal` -/
def IndexRecord.equal (a b : IndexRecord) : Bool :=
  a.offset == b.offset && bufCmp a.lastKey b.lastKey == .ok .eq

/-- `reftable_record_equal` -/
def Record.equal : Record hashSize → Record hashSize → Bool
  | .ref a, .ref b => a.equal b
  | .log a, .log b => a.equal b
  | .obj a, .obj b => a.equal b
  | .index a, .index b => a.equal b
  | _, _ => false

/-! ## Filling a record -/

/-- A `struct reftable_ref_record` to be filled. `refname` is a buffer, in which bytes may follow
the string. -/
structure RefSlot (hashSize : Nat) where
  refname : Bytes
  updateIndex : UInt64
  value : RefValue hashSize

/-- A `struct reftable_log_record` to be filled. The members of the update are there in a deletion
as well; `refname` and `message` are buffers. -/
structure LogSlot (hashSize : Nat) where
  refname : Bytes
  updateIndex : UInt64
  valueType : UInt8
  newHash : Hash hashSize
  oldHash : Hash hashSize
  name : Option CStr
  email : Option CStr
  time : UInt64
  tzOffset : Int16
  message : Option Bytes

/-- A `struct reftable_record` to be filled. -/
inductive Slot (hashSize : Nat) where
  | ref (slot : RefSlot hashSize)
  | log (slot : LogSlot hashSize)
  | obj (slot : ObjRecord)
  | index (slot : IndexRecord)

/-- The type of a slot. -/
def Slot.type : Slot hashSize → BlockType
  | .ref _ => .ref
  | .log _ => .log
  | .obj _ => .obj
  | .index _ => .index

/-- The buffer after bytes were copied to its start. -/
def copyOver (buffer bytes : Bytes) : Bytes := bytes ++ buffer.drop bytes.length

/-- `reftable_ref_record_decode`: the buffer of the name outlives the release of the record. -/
def RefSlot.decode (slot : RefSlot hashSize) (key : Bytes) (valType : UInt8) (input : Bytes) :
    Except ReftableError (RefSlot hashSize × Bytes) :=
  match getVarInt input with
  | none => .error .unnamed
  | some (updateIndex, input) => do
    let (value, rest) ← decodeRefValue hashSize valType input
    .ok (⟨copyOver slot.refname (key ++ [0]), updateIndex, value⟩, rest)

/-- The name or the email after reading: the one that is there is kept if it is the same. -/
def keepOrCopy (old : Option CStr) (scratch : Bytes) : CStr :=
  match old with
  | none => cstrOfBytes scratch
  | some s => if strcmp s (cstrOfBytes scratch) ≠ .eq then cstrOfBytes scratch else s

/-- The part of `reftable_log_record_decode` that frees the strings of an update when the type
changes. -/
def LogSlot.retype (slot : LogSlot hashSize) (valType : UInt8) : LogSlot hashSize :=
  if valType ≠ slot.valueType ∧ slot.valueType = 1 then
    { slot with message := none, email := none, name := none, valueType := valType }
  else { slot with valueType := valType }

/-- The part of `reftable_log_record_decode` that reads an update. -/
def LogSlot.decodeUpdate (slot : LogSlot hashSize) (input : Bytes) :
    Option (LogSlot hashSize × Bytes) := do
  let (oldHash, input) ← takeHash hashSize input
  let (newHash, input) ← takeHash hashSize input
  let (name, input) ← decodeString input
  let (email, input) ← decodeString input
  let (time, input) ← getVarInt input
  let tzOffset ← getBe16 input
  let (message, input) ← decodeString (input.drop 2)
  some (
    { slot with
      oldHash := oldHash
      newHash := newHash
      name := some (keepOrCopy slot.name name)
      email := some (keepOrCopy slot.email email)
      time := time
      tzOffset := (UInt16.ofNat tzOffset).toInt16
      message := some (copyOver (slot.message.getD []) (message ++ [0])) }, input)

/-- `reftable_log_record_decode` -/
def LogSlot.decode (slot : LogSlot hashSize) (key : Bytes) (valType : UInt8) (input : Bytes) :
    Except ReftableError (LogSlot hashSize × Bytes) :=
  if key.length ≤ 9 ∨ key[key.length - 9]? ≠ some 0 then .error .format
  else
    match getBe64 (key.drop (key.length - 8)) with
    | none => .error .format
    | some ts =>
      let slot := { slot with
        refname := copyOver slot.refname (key.take (key.length - 8))
        updateIndex := 0xffffffffffffffff - ts }
      let slot := slot.retype valType
      if valType = 0 then .ok (slot, input)
      else
        match slot.decodeUpdate input with
        | none => .error .format
        | some (slot, rest) => .ok (slot, rest)

/-- `reftable_record_decode`. Object and index records are released or reset before they are
filled. -/
def Slot.decode (slot : Slot hashSize) (key : Bytes) (extra : UInt8) (src : Bytes) :
    Except ReftableError (Slot hashSize × Bytes) :=
  match slot with
  | .ref slot => do
      let (slot, rest) ← slot.decode key extra src
      .ok (.ref slot, rest)
  | .log slot => do
      let (slot, rest) ← slot.decode key extra src
      .ok (.log slot, rest)
  | .obj _ => do
      let (slot, rest) ← ObjRecord.decode key extra src
      .ok (.obj slot, rest)
  | .index _ => do
      let (slot, rest) ← IndexRecord.decode key extra src
      .ok (.index slot, rest)

/-- A key and a record behind it read as `block_iter_next` reads them. -/
def Slot.decodeEntry (slot : Slot hashSize) (lastKey input : Bytes) :
    Except ReftableError (Slot hashSize × Bytes) :=
  match decodeKey lastKey input with
  | none => .error .unnamed
  | some (key, extra, input) => slot.decode key extra input

/-- The record in a slot. -/
def RefSlot.record (slot : RefSlot hashSize) : RefRecord hashSize :=
  ⟨cstrOfBytes slot.refname, slot.updateIndex, slot.value⟩

/-- The record in a slot. -/
def LogSlot.record (slot : LogSlot hashSize) : LogRecord hashSize :=
  ⟨cstrOfBytes slot.refname, slot.updateIndex,
    if slot.valueType = 0 then none
    else some ⟨slot.newHash, slot.oldHash, slot.name, slot.email, slot.time, slot.tzOffset,
      slot.message.map cstrOfBytes⟩⟩

/-- The record in a slot. -/
def Slot.record : Slot hashSize → Record hashSize
  | .ref slot => .ref slot.record
  | .log slot => .log slot.record
  | .obj slot => .obj slot
  | .index slot => .index slot

/-! ## What a slot held before -/

/-- A string ends at its first NUL. -/
theorem cstrOfBytes_append_zero (a b : Bytes) : cstrOfBytes (a ++ 0 :: b) = cstrOfBytes a := by
  apply Subtype.ext
  change List.takeWhile (fun x => decide (x ≠ 0)) _ = List.takeWhile (fun x => decide (x ≠ 0)) _
  rw [takeWhile_append]
  split
  · rename_i h
    rw [takeWhile_cons_of_neg (by simp), append_nil]
    exact ((List.takeWhile_prefix _).eq_of_length h).symm
  · rfl

theorem cstrOfBytes_copyOver (buffer bytes : Bytes) :
    cstrOfBytes (copyOver buffer (bytes ++ [0])) = cstrOfBytes bytes := by
  rw [copyOver, append_assoc, singleton_append, cstrOfBytes_append_zero]

theorem keepOrCopy_eq (old : Option CStr) (scratch : Bytes) :
    keepOrCopy old scratch = cstrOfBytes scratch := by
  cases old with
  | none => rfl
  | some s =>
    rw [keepOrCopy]
    split
    · rfl
    · rename_i h
      exact Subtype.ext (bytesCmp_eq_eq.mp (not_not.mp h))

/-- The record that `RefSlot.decode` leaves. -/
theorem RefSlot.decode_record (slot : RefSlot hashSize) (key : Bytes) (valType : UInt8)
    (input : Bytes) :
    (slot.decode key valType input).map (Prod.map RefSlot.record id) =
      RefRecord.decode key valType input := by
  rw [RefSlot.decode, RefRecord.decode]
  cases getVarInt input with
  | none => rfl
  | some read =>
    obtain ⟨updateIndex, input⟩ := read
    dsimp only
    cases decodeRefValue hashSize valType input with
    | error e => rfl
    | ok value =>
      refine congrArg Except.ok (Prod.ext ?_ rfl)
      exact congrArg (fun name => (⟨name, updateIndex, value.1⟩ : RefRecord hashSize))
        (cstrOfBytes_copyOver slot.refname key)

variable (slot : LogSlot hashSize) (valType : UInt8)

/-- The update that `LogSlot.decodeUpdate` leaves does not depend on the slot. -/
theorem LogSlot.decodeUpdate_record (htype : slot.valueType ≠ 0) (input : Bytes) :
    (slot.decodeUpdate input).map (Prod.map LogSlot.record id) =
      (decodeLogUpdate hashSize input).map fun read =>
        (⟨cstrOfBytes slot.refname, slot.updateIndex, some read.1⟩, read.2) := by
  rw [LogSlot.decodeUpdate, decodeLogUpdate]
  -- both read the same things one after the other; only what is made of them is to be compared
  simp only [bind_eq_bind, map_bind, Function.comp_def, map_some, Prod.map,
    LogSlot.record, if_neg htype, keepOrCopy_eq, cstrOfBytes_copyOver, id]

@[simp] theorem LogSlot.retype_refname : (slot.retype valType).refname = slot.refname := by
  rw [LogSlot.retype]
  split <;> rfl

@[simp] theorem LogSlot.retype_updateIndex :
    (slot.retype valType).updateIndex = slot.updateIndex := by
  rw [LogSlot.retype]
  split <;> rfl

@[simp] theorem LogSlot.retype_valueType : (slot.retype valType).valueType = valType := by
  rw [LogSlot.retype]
  split <;> rfl

/-- The name that a log record gets from its key ends with the NUL in the key, not with the buffer.
-/
theorem cstrOfBytes_copyOver_key {key : Bytes} (hlen : ¬key.length ≤ 9)
    (hzero : key[key.length - 9]? = some 0) (buffer : Bytes) :
    cstrOfBytes (copyOver buffer (key.take (key.length - 8))) =
      cstrOfBytes (key.take (key.length - 8)) := by
  have htake : key.take (key.length - 8) = key.take (key.length - 9) ++ [0] := by
    rw [show key.length - 8 = key.length - 9 + 1 by omega, take_add_one, hzero]
    rfl
  rw [htake, cstrOfBytes_copyOver, cstrOfBytes_append_zero]

/-- The record that `LogSlot.decode` leaves. -/
theorem LogSlot.decode_record (key : Bytes) (valType : UInt8) (input : Bytes) :
    (slot.decode key valType input).map (Prod.map LogSlot.record id) =
      LogRecord.decode key valType input := by
  rw [LogSlot.decode, LogRecord.decode]
  by_cases hkey : key.length ≤ 9 ∨ key[key.length - 9]? ≠ some 0
  · rw [if_pos hkey, if_pos hkey]
    rfl
  rw [if_neg hkey, if_neg hkey]
  obtain ⟨hlen, hzero⟩ := not_or.mp hkey
  have hname := cstrOfBytes_copyOver_key hlen (not_not.mp hzero) slot.refname
  cases getBe64 (key.drop (key.length - 8)) with
  | none => rfl
  | some ts =>
    dsimp only
    generalize hslot : LogSlot.retype _ valType = slot'
    have hrefname : cstrOfBytes slot'.refname = cstrOfBytes (key.take (key.length - 8)) := by
      rw [← hslot, LogSlot.retype_refname, hname]
    have hindex : slot'.updateIndex = 0xffffffffffffffff - ts := by
      rw [← hslot, LogSlot.retype_updateIndex]
    have htype : slot'.valueType = valType := by rw [← hslot, LogSlot.retype_valueType]
    by_cases hdeletion : valType = 0
    · rw [if_pos hdeletion, if_pos hdeletion]
      refine congrArg Except.ok (Prod.ext ?_ rfl)
      simp only [Prod.map, LogSlot.record, hrefname, hindex, htype, if_pos hdeletion]
    rw [if_neg hdeletion, if_neg hdeletion]
    have hupdate := LogSlot.decodeUpdate_record slot' (htype ▸ hdeletion) input
    rw [hrefname, hindex] at hupdate
    cases hread : decodeLogUpdate hashSize input with
    | none =>
      rw [hread, map_none, map_eq_none_iff] at hupdate
      rw [hupdate]
      rfl
    | some update =>
      rw [hread, map_some, map_eq_some_iff] at hupdate
      obtain ⟨read, hread', heq⟩ := hupdate
      rw [hread']
      exact congrArg Except.ok heq

/-- `reftable_record_decode` as a function of what it reads. -/
def Record.decode (type : BlockType) (key : Bytes) (extra : UInt8) (src : Bytes) :
    Except ReftableError (Record hashSize × Bytes) :=
  match type with
  | .ref => (RefRecord.decode key extra src).map (Prod.map .ref id)
  | .log => (LogRecord.decode key extra src).map (Prod.map .log id)
  | .obj => (ObjRecord.decode key extra src).map (Prod.map .obj id)
  | .index => (IndexRecord.decode key extra src).map (Prod.map .index id)

/-- **The decoded record does not depend on the slot**, whatever the bytes are. -/
theorem Slot.decode_record (slot : Slot hashSize) (key : Bytes) (extra : UInt8) (src : Bytes) :
    (slot.decode key extra src).map (Prod.map Slot.record id) =
      Record.decode slot.type key extra src := by
  cases slot with
  | ref slot =>
    rw [Slot.type, Record.decode, ← RefSlot.decode_record slot, Slot.decode]
    cases slot.decode key extra src <;> rfl
  | log slot =>
    rw [Slot.type, Record.decode, ← LogSlot.decode_record slot, Slot.decode]
    cases slot.decode key extra src <;> rfl
  | obj slot =>
    rw [Slot.type, Record.decode, Slot.decode]
    cases ObjRecord.decode key extra src <;> rfl
  | index slot =>
    rw [Slot.type, Record.decode, Slot.decode]
    cases IndexRecord.decode key extra src <;> rfl

/-! ## The bytes of a record -/

/-- The bytes of a log record behind its key. -/
def LogRecord.valueBytes (r : LogRecord hashSize) : Bytes :=
  match r.value with
  | none => []
  | some update =>
    update.oldHash.val ++ update.newHash.val ++ stringBytes (orEmpty update.name) ++
      stringBytes (orEmpty update.email) ++ varInt update.time ++
      putBe16 update.tzOffset.toUInt16.toNat ++ stringBytes (orEmpty update.message)

/-- The bytes of a record behind its key. -/
def Record.valueBytes : Record hashSize → Bytes
  | .ref r => r.valueBytes
  | .log r => r.valueBytes
  | .obj r => r.valueBytes
  | .index r => varInt r.offset

/-- The bytes of a record with its key. -/
def Record.entryBytes (prevKey : Bytes) (r : Record hashSize) : Bytes :=
  keyBytes prevKey r.key r.valType ++ r.valueBytes

theorem LogRecord.encodes : Encodes r.encode r.valueBytes := by
  intro room
  obtain ⟨refname, updateIndex, value⟩ := r
  dsimp only [LogRecord.encode, LogRecord.valueBytes]
  cases value with
  | none => exact (if_pos (Nat.zero_le _)).symm
  | some update =>
    have hzone : (putBe16 update.tzOffset.toUInt16.toNat).length = 2 := rfl
    simp only [(encodes_encodeString _).bind, (encodes_putVarInt _).bind, length_append,
      update.oldHash.property, update.newHash.property, hzone]
    split_ifs <;> first | rfl | omega

theorem Record.encodes (r : Record hashSize) : Encodes r.encode r.valueBytes := by
  cases r with
  | ref r | log r | obj r => exact r.encodes
  | index r => exact encodes_putVarInt r.offset

/-- **A record with its key is written as a whole or not at all.** -/
theorem encodes_encodeEntry (prevKey : Bytes) (r : Record hashSize) :
    Encodes (fun room => encodeEntry room prevKey r) (r.entryBytes prevKey) := by
  intro room
  dsimp only [encodeEntry]
  rw [encodeKey_eq, Record.entryBytes, length_append]
  generalize keyBytes prevKey r.key r.valType = key
  split_ifs with h₁ h₂ h₂
  · change (r.encode (room - key.length) >>= _) = _
    rw [r.encodes.bind, if_pos (by omega)]
  · change (r.encode (room - key.length) >>= _) = _
    rw [r.encodes.bind, if_neg (by omega)]
  · omega
  · rfl

/-! ## Reading the bytes -/

/-- The record with strings that are `NULL` replaced by empty ones, which is how they are stored. -/
def LogRecord.stored (r : LogRecord hashSize) : LogRecord hashSize :=
  { r with
    value := r.value.map fun u =>
      { u with
        name := some (orEmpty u.name)
        email := some (orEmpty u.email)
        message := some (orEmpty u.message) } }

/-- The record as it is stored. -/
def Record.stored : Record hashSize → Record hashSize
  | .log r => .log r.stored
  | r => r

/-- The stored record is equal to the record. -/
theorem Record.equal_stored (r : Record hashSize) : r.stored.equal r = true := by
  cases r with
  | ref r =>
    obtain ⟨refname, updateIndex, value⟩ := r
    cases value <;> simp [Record.stored, Record.equal, RefRecord.equal, nullStreq]
  | log r =>
    obtain ⟨refname, updateIndex, value⟩ := r
    cases value <;>
      simp [Record.stored, Record.equal, LogRecord.stored, LogRecord.equal, nullStreq, orEmpty]
  | obj r => simp [Record.stored, Record.equal, ObjRecord.equal]
  | index r => simp [Record.stored, Record.equal, IndexRecord.equal, bufCmp_eq, bytesCmp_eq_eq.mpr]

/-- The update of a log record is restored. -/
theorem decodeLogUpdate_valueBytes {refname : CStr} {updateIndex : UInt64}
    {update : LogUpdate hashSize}
    (hsize : (LogRecord.valueBytes ⟨refname, updateIndex, some update⟩).length < 2 ^ 64)
    (rest : Bytes) :
    decodeLogUpdate hashSize (LogRecord.valueBytes ⟨refname, updateIndex, some update⟩ ++ rest) =
      some ({ update with
        name := some (orEmpty update.name)
        email := some (orEmpty update.email)
        message := some (orEmpty update.message) }, rest) := by
  simp only [LogRecord.valueBytes, length_append] at hsize
  have hzone (rest : Bytes) : getBe16 (putBe16 update.tzOffset.toUInt16.toNat ++ rest) =
      some update.tzOffset.toUInt16.toNat := getBe16_putBe16 (UInt16.toNat_lt _) rest
  have hdrop (rest : Bytes) : (putBe16 update.tzOffset.toUInt16.toNat ++ rest).drop 2 = rest := rfl
  simp only [decodeLogUpdate, LogRecord.valueBytes, append_assoc, takeHash_append,
    decodeString_stringBytes (show (stringBytes (orEmpty update.name)).length < 2 ^ 64 by omega),
    decodeString_stringBytes (show (stringBytes (orEmpty update.email)).length < 2 ^ 64 by omega),
    decodeString_stringBytes (show (stringBytes (orEmpty update.message)).length < 2 ^ 64 by omega),
    getVarInt_varInt, hzone, hdrop, bind_eq_bind, bind_some, cstrOfBytes_val]
  simp

theorem LogRecord.length_key : r.key.length = r.refname.val.length + 9 := by
  rw [LogRecord.key, length_append, length_cons, length_putBe64]

/-- The NUL in the key of a log record. -/
theorem LogRecord.key_zero : r.key[r.key.length - 9]? = some 0 := by
  rw [LogRecord.length_key, Nat.add_sub_cancel, LogRecord.key, getElem?_append_right le_rfl,
    Nat.sub_self]
  rfl

/-- The last bytes of the key of a log record. -/
theorem LogRecord.getBe64_key :
    getBe64 (r.key.drop (r.key.length - 8)) = some (0xffffffffffffffff - r.updateIndex) := by
  have hdrop : r.key.drop (r.key.length - 8) = putBe64 (0xffffffffffffffff - r.updateIndex) ++ [] := by
    rw [LogRecord.length_key, LogRecord.key, append_nil,
      show r.refname.val.length + 9 - 8 = r.refname.val.length + 1 by omega, ← drop_drop, drop_left]
    rfl
  rw [hdrop, getBe64_putBe64]

/-- The first bytes of the key of a log record. -/
theorem LogRecord.cstrOfBytes_key : cstrOfBytes (r.key.take (r.key.length - 8)) = r.refname := by
  have htake : r.key.take (r.key.length - 8) = r.refname.val ++ [0] := by
    rw [LogRecord.length_key, LogRecord.key,
      show r.refname.val.length + 9 - 8 = r.refname.val.length + 1 by omega, take_append,
      take_of_length_le (Nat.le_succ _), Nat.add_sub_cancel_left]
    rfl
  rw [htake, cstrOfBytes_append_zero, cstrOfBytes_val]

/-- `reftable_log_record_decode` behind its check of the key. -/
def LogRecord.decodeChecked (key : Bytes) (valType : UInt8) (input : Bytes) :
    Except ReftableError (LogRecord hashSize × Bytes) :=
  match getBe64 (key.drop (key.length - 8)) with
  | none => .error .format
  | some ts =>
    let refname := cstrOfBytes (key.take (key.length - 8))
    let updateIndex := 0xffffffffffffffff - ts
    if valType = 0 then .ok (⟨refname, updateIndex, none⟩, input)
    else
      match decodeLogUpdate hashSize input with
      | none => .error .format
      | some (update, rest) => .ok (⟨refname, updateIndex, some update⟩, rest)

variable {r}

/-- Behind the check every log record is restored. -/
theorem LogRecord.decodeChecked_valueBytes (hsize : r.valueBytes.length < 2 ^ 64) (rest : Bytes) :
    LogRecord.decodeChecked r.key r.valType (r.valueBytes ++ rest) = .ok (r.stored, rest) := by
  have hindex : (0xffffffffffffffff : UInt64) - (0xffffffffffffffff - r.updateIndex) =
      r.updateIndex := by
    rw [UInt64.sub_eq_add_neg, UInt64.neg_sub, UInt64.add_comm, UInt64.sub_add_cancel]
  rw [LogRecord.decodeChecked, r.getBe64_key]
  dsimp only
  rw [r.cstrOfBytes_key, hindex]
  obtain ⟨refname, updateIndex, value⟩ := r
  cases value with
  | none => rfl
  | some update =>
    rw [decodeLogUpdate_valueBytes hsize]
    rfl

/-- The key of a log record passes the check if the record has a name. -/
theorem LogRecord.decode_key (input : Bytes) :
    (LogRecord.decode r.key valType input : Except ReftableError (LogRecord hashSize × Bytes)) =
      if r.refname.val = [] then .error .format
      else LogRecord.decodeChecked r.key valType input := by
  have hlen := r.length_key
  by_cases hname : r.refname.val = []
  · rw [if_pos hname]
    exact if_pos (.inl (by rw [hlen, hname]; exact le_rfl))
  · have hpos := length_pos_iff.mpr hname
    rw [if_neg hname]
    exact if_neg (not_or.mpr ⟨by omega, not_not.mpr r.key_zero⟩)

/-- A log record with a name is restored. -/
theorem LogRecord.decode_valueBytes (hname : r.refname.val ≠ [])
    (hsize : r.valueBytes.length < 2 ^ 64) (rest : Bytes) :
    LogRecord.decode r.key r.valType (r.valueBytes ++ rest) = .ok (r.stored, rest) := by
  rw [LogRecord.decode_key, if_neg hname, LogRecord.decodeChecked_valueBytes hsize]

/-- A log record without a name is not. -/
theorem LogRecord.decode_unnamed (hname : r.refname.val = []) (valType : UInt8) (input : Bytes) :
    (LogRecord.decode r.key valType input : Except ReftableError (LogRecord hashSize × Bytes)) =
      .error .format := by
  rw [LogRecord.decode_key, if_pos hname]

/-- The records that are restored: the name of a log record and the prefix of an object record are
not empty. -/
def Record.Named : Record hashSize → Prop
  | .ref _ => True
  | .log r => r.refname.val ≠ []
  | .obj r => r.hashPrefix ≠ []
  | .index _ => True

variable {r : Record hashSize}

/-- What is read from the bytes of a record. -/
theorem Record.decode_valueBytes (hsize : r.valueBytes.length < 2 ^ 31)
    (hnamed : r.Named) (rest : Bytes) :
    Record.decode r.type r.key r.valType (r.valueBytes ++ rest) = .ok (r.stored, rest) := by
  cases r with
  | ref r =>
    exact congrArg (Except.map (Prod.map Record.ref id))
      (RefRecord.decode_valueBytes (hsize.trans (by decide)) rest)
  | log r =>
    exact congrArg (Except.map (Prod.map Record.log id))
      (LogRecord.decode_valueBytes hnamed (hsize.trans (by decide)) rest)
  | obj r =>
    exact congrArg (Except.map (Prod.map Record.obj id))
      (ObjRecord.decode_valueBytes (hsize.trans (by decide)) hnamed rest)
  | index r =>
    change Except.map _ (IndexRecord.decode _ _ (varInt r.offset ++ rest)) = _
    rw [IndexRecord.decode, getVarInt_varInt]
    rfl

/-- Nothing is read for other records. -/
theorem Record.decode_unnamed (hnamed : ¬r.Named) (extra : UInt8) (input : Bytes) :
    ∃ e, (Record.decode r.type r.key extra input :
      Except ReftableError (Record hashSize × Bytes)) = .error e := by
  cases r with
  | ref | index => exact absurd trivial hnamed
  | log r =>
    refine ⟨.format, ?_⟩
    change (LogRecord.decode r.key extra input).map _ = _
    rw [LogRecord.decode_unnamed (not_not.mp hnamed)]
    rfl
  | obj r =>
    refine ⟨.outOfMemory, ?_⟩
    change (ObjRecord.decode r.hashPrefix extra input).map _ = _
    rw [ObjRecord.decode, if_pos (not_not.mp hnamed)]
    rfl

theorem Record.valType_lt (r : Record hashSize) : r.valType.toNat < 8 := by
  cases r with
  | ref r => exact @RecordCodec.Lawful.valType_lt _ (refRecordCodec hashSize) inferInstance r
  | log r =>
    change (if r.isDeletion then (0 : UInt8) else 1).toNat < 8
    split <;> decide
  | obj r => exact @RecordCodec.Lawful.valType_lt _ objRecordCodec inferInstance r
  | index r => exact Nat.zero_lt_succ 7

/-- At most that many bytes are stored: two lengths of up to ten bytes, the key and the rest. The
functions return numbers of bytes as `int`, so that only less than 2 GiB make sense. -/
def Record.maxEntrySize (r : Record hashSize) : Nat := 2 * 10 + r.key.length + r.valueBytes.length

/-- The key is restored, and the rest is left to the decoder of the record. -/
theorem Slot.decodeEntry_entryBytes (hsize : r.maxEntrySize < 2 ^ 31)
    (prevKey : Bytes) (slot : Slot hashSize) (rest : Bytes) :
    slot.decodeEntry prevKey (r.entryBytes prevKey ++ rest) =
      slot.decode r.key r.valType (r.valueBytes ++ rest) := by
  have hlt : r.key.length < 2 ^ 32 := by rw [Record.maxEntrySize] at hsize; omega
  have hkey := decodeKey_key hlt (commonPrefixSize_le_right prevKey r.key) r.valType_lt
    (commonPrefixSize_le_left prevKey r.key) (take_commonPrefixSize prevKey r.key)
    (r.valueBytes ++ rest)
  simp only [Slot.decodeEntry, Record.entryBytes, keyBytes, append_assoc, hkey]

/-! ## The round trip -/

/-- A record is stored after the key `prevKey` as a whole or, if there is not enough room, not at
all. What is then read after that key, into any record of the type, is an equal record, and the
bytes behind it are left. What is read from any bytes does not depend on the record it is read into.
-/
structure Record.RoundTrips (prevKey : Bytes) (r : Record hashSize) : Prop where
  encodes : Encodes (fun room => encodeEntry room prevKey r) (r.entryBytes prevKey)
  decodes : ∀ slot : Slot hashSize, slot.type = r.type → ∀ rest, ∃ slot' : Slot hashSize,
    slot.decodeEntry prevKey (r.entryBytes prevKey ++ rest) = .ok (slot', rest) ∧
      slot'.record.equal r = true
  independent : ∀ slot slot' : Slot hashSize, slot.type = r.type → slot'.type = r.type → ∀ input,
    (slot.decodeEntry prevKey input).map (Prod.map Slot.record id) =
      (slot'.decodeEntry prevKey input).map (Prod.map Slot.record id)

/-- A hash of zeros. -/
def zeroHash (hashSize : Nat) : Hash hashSize := ⟨List.replicate hashSize 0, length_replicate⟩

/-- A record of the type that is all zeros. -/
def BlockType.zeroSlot (hashSize : Nat) : BlockType → Slot hashSize
  | .ref => .ref ⟨[], 0, .deletion⟩
  | .log => .log ⟨[], 0, 0, zeroHash hashSize, zeroHash hashSize, none, none, 0, 0, none⟩
  | .obj => .obj ⟨[], []⟩
  | .index => .index ⟨0, []⟩

theorem BlockType.type_zeroSlot (type : BlockType) : (type.zeroSlot hashSize).type = type := by
  cases type <;> rfl

theorem Slot.decodeEntry_record (slot : Slot hashSize) (lastKey input : Bytes) :
    (slot.decodeEntry lastKey input).map (Prod.map Slot.record id) =
      (decodeKey lastKey input).elim (.error .unnamed) fun read =>
        Record.decode slot.type read.1 read.2.1 read.2.2 := by
  rw [Slot.decodeEntry]
  cases decodeKey lastKey input with
  | none => rfl
  | some read => exact slot.decode_record read.1 read.2.1 read.2.2

/-- **Round trip of records.** A record that takes less than 2 GiB is restored by the decoders,
after any key and into any record, exactly if it is not a log record with an empty name or an object
record with an empty prefix. -/
theorem record_roundTrips_iff (prevKey : Bytes) (r : Record hashSize)
    (hsize : r.maxEntrySize < 2 ^ 31) : r.RoundTrips prevKey ↔ r.Named := by
  constructor
  · intro h
    by_contra hnamed
    obtain ⟨slot', hread, -⟩ := h.decodes (r.type.zeroSlot hashSize) r.type.type_zeroSlot []
    obtain ⟨e, herror⟩ := Record.decode_unnamed hnamed r.valType (r.valueBytes ++ [])
    rw [Slot.decodeEntry_entryBytes hsize] at hread
    have hrecord := (r.type.zeroSlot hashSize).decode_record r.key r.valType (r.valueBytes ++ [])
    rw [hread, r.type.type_zeroSlot, herror] at hrecord
    cases hrecord
  · intro hnamed
    have hvalue : r.valueBytes.length < 2 ^ 31 := by rw [Record.maxEntrySize] at hsize; omega
    refine ⟨encodes_encodeEntry prevKey r, fun slot htype rest => ?_, fun slot slot' h h' input => ?_⟩
    · have hrecord := slot.decode_record r.key r.valType (r.valueBytes ++ rest)
      rw [htype, Record.decode_valueBytes hvalue hnamed, ← Slot.decodeEntry_entryBytes hsize prevKey]
        at hrecord
      cases hread : slot.decodeEntry prevKey (r.entryBytes prevKey ++ rest) with
      | error e => rw [hread] at hrecord; cases hrecord
      | ok read =>
        rw [hread] at hrecord
        obtain ⟨hstored, hrest⟩ := Prod.mk.inj (Except.ok.inj hrecord)
        obtain ⟨slot', rest'⟩ := read
        refine ⟨slot', congrArg (fun x => Except.ok (slot', x)) hrest, ?_⟩
        rw [hstored, r.equal_stored]
    · rw [slot.decodeEntry_record, slot'.decodeEntry_record, h, h']

/-- An object record with ten offsets is restored after a key that shares its first byte. -/
theorem record_roundTrips_obj :
    (Record.obj ⟨[1, 2], [5, 5, 9, 100, 200, 300, 400, 500, 600, 70000]⟩ :
      Record 20).RoundTrips [1, 7] :=
  (record_roundTrips_iff [1, 7] (.obj ⟨[1, 2], [5, 5, 9, 100, 200, 300, 400, 500, 600, 70000]⟩)
    (by decide +kernel)).mpr (cons_ne_nil 1 [2])

/-- The deletion of a log entry of a ref with an empty name. -/
def unnamedLog : Record 20 := .log ⟨⟨[], zero_not_mem_nil⟩, 7, none⟩

/-- An object record with an empty prefix. -/
def unnamedObj : Record 20 := .obj ⟨[], [100]⟩

/-- **A log record with an empty name and an object record with an empty prefix are stored, but
cannot be read back**: the decoders return `REFTABLE_FORMAT_ERROR` and
`REFTABLE_OUT_OF_MEMORY_ERROR`. -/
theorem unnamed_records_not_restored :
    (encodeEntry 100 [] unnamedLog = .ok (unnamedLog.entryBytes []) ∧
      ∀ slot : LogSlot 20,
        (Slot.log slot).decodeEntry [] (unnamedLog.entryBytes []) = .error .format) ∧
    (encodeEntry 100 [] unnamedObj = .ok (unnamedObj.entryBytes []) ∧
      ∀ slot : ObjRecord,
        (Slot.obj slot : Slot 20).decodeEntry [] (unnamedObj.entryBytes []) =
          .error .outOfMemory) := by
  refine ⟨⟨(encodes_encodeEntry [] unnamedLog 100).trans (if_pos (by decide)), fun slot => ?_⟩,
    (encodes_encodeEntry [] unnamedObj 100).trans (if_pos (by decide)), fun slot => ?_⟩
  · rw [← append_nil (unnamedLog.entryBytes []), Slot.decodeEntry_entryBytes (by decide)]
    rfl
  · rw [← append_nil (unnamedObj.entryBytes []), Slot.decodeEntry_entryBytes (by decide)]
    rfl

end GitCore.Reftable
