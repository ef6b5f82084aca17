import GitCore.Lib.Bytes
import GitCore.Reftable.Basics

/-! # Variable-length integers

Three implementations of one code: `varint.c`, its port `varint.rs` and the one of reftables. A
number is written in groups of seven bits with the most significant group first; every byte but the
last one has its top bit set, and each group above the last one is stored less one, so that no
number has two codes. -/

namespace GitCore.Varint

open Nat
open Reftable (Bytes varIntGroups varInt putVarInt getVarInt getVarIntLoop)

/-! ## varint.c -/

/-- `encode_varint`: the loop is the one of `put_var_int`, with an array of 16 bytes. -/
def encodeVarint (value : UInt64) : Bytes := varIntGroups 15 value [(value &&& 127).toUInt8]

/-- `MSB` for a number of 64 bits. -/
def msb (x : UInt64) (bits : UInt64) : UInt64 := x &&& ((~~~0 : UInt64) <<< (64 - bits))

/-- How the loop of a decoder ends. -/
inductive Decoded where
  /-- With a number and the bytes behind it. -/
  | value (val : UInt64) (buf : Bytes)
  /-- With a number of more than 64 bits. -/
  | overflow
  /-- The buffer ends inside of a number. -/
  | pastEnd
deriving DecidableEq

/-- The loop of `decode_varint` after the byte `c`, with the test for an overflow. -/
def decodeLoop (overflows : UInt64 → Bool) (val : UInt64) (c : UInt8) : Bytes → Decoded
  | [] =>
    if c &&& 128 = 0 then .value val []
    else if overflows (val + 1) then .overflow
    else .pastEnd
  | c' :: buf =>
    if c &&& 128 = 0 then .value val (c' :: buf)
    else if overflows (val + 1) then .overflow
    else decodeLoop overflows (((val + 1) <<< 7) + (c' &&& 127).toUInt64) c' buf

/-- What a decoder returns for `*bufp`, and `*bufp` afterwards; `none` when it reads past the end.
-/
def decodeWith (overflows : UInt64 → Bool) : Bytes → Option (UInt64 × Bytes)
  | [] => none
  | c :: buf =>
    match decodeLoop overflows (c &&& 127).toUInt64 c buf with
    | .value val buf => some (val, buf)
    | .overflow => some (0, c :: buf)
    | .pastEnd => none

/-- The test for an overflow in `decode_varint`. -/
def overflows (val : UInt64) : Bool := val == 0 || msb val 7 != 0

/-- `decode_varint` -/
def decodeVarint (bufp : Bytes) : Option (UInt64 × Bytes) := decodeWith overflows bufp

/-! ## varint.rs -/

/-- `u64::leading_zeros` -/
def leadingZeros (val : UInt64) : Nat := if val = 0 then 64 else 63 - val.toNat.log2

/-- The test for an overflow in the port. -/
def Rust.overflows (val : UInt64) : Bool := val == 0 || decide (leadingZeros val < 7)

/-- `decode_varint` of the port. -/
def Rust.decodeVarint (bufp : Bytes) : Option (UInt64 × Bytes) := decodeWith Rust.overflows bufp

/-- The loop of `encode_varint` of the port. -/
def Rust.encodeLoop : Nat → UInt64 → Bytes → Bytes
  | 0, _, varint => varint
  | fuel + 1, value, varint =>
    if value = 0 then varint
    else
      let value := value - 1
      encodeLoop fuel (value >>> 7) ((128 ||| (value &&& 127).toUInt8) :: varint)

/-- `encode_varint` of the port. -/
def Rust.encodeVarint (value : UInt64) : Bytes :=
  Rust.encodeLoop 15 (value >>> 7) [(value &&& 127).toUInt8]

/-! ## The encoders -/

/-- Nine groups above the last one are enough. -/
theorem varIntGroups_fuel {fuel : Nat} (extra : Nat) {value : UInt64}
    (h : value.toNat < 2 ^ (7 * (fuel + 1))) (varint : Bytes) :
    varIntGroups (fuel + extra) value varint = varIntGroups fuel value varint := by
  induction fuel generalizing value varint with
  | zero =>
    have hv : value >>> 7 = 0 := UInt64.toNat_inj.mp (by
      rw [Reftable.toNat_shiftRight_seven, div_eq_of_lt (by simpa using h)]
      rfl)
    cases extra with
    | zero => rfl
    | succ extra => exact if_pos hv
  | succ fuel ih =>
    rw [add_right_comm, varIntGroups, varIntGroups]
    split
    · rfl
    rename_i hne
    apply ih
    rw [Reftable.toNat_shiftRight_sub_one hne]
    grind

variable (value : UInt64)

theorem toNat_lt_groups : value.toNat < 2 ^ (7 * (9 + 1)) := by
  have := value.toNat_lt
  omega

/-- `encode_varint` writes what `put_var_int` writes. -/
theorem encodeVarint_eq : encodeVarint value = varInt value :=
  varIntGroups_fuel 6 (toNat_lt_groups value) _

/-- The loop of the port shifts at the end and not at the start. -/
theorem rust_encodeLoop_eq (fuel : Nat) (value : UInt64) (varint : Bytes) :
    Rust.encodeLoop fuel (value >>> 7) varint = varIntGroups fuel value varint := by
  induction fuel generalizing value varint with
  | zero => rfl
  | succ fuel ih =>
    rw [Rust.encodeLoop, varIntGroups]
    split
    · rfl
    rw [ih]
    simp

theorem rust_encodeVarint_eq : Rust.encodeVarint value = varInt value := by
  rw [Rust.encodeVarint, rust_encodeLoop_eq]
  exact varIntGroups_fuel 6 (toNat_lt_groups value) _

theorem length_varIntGroups_le (fuel : Nat) (value : UInt64) (varint : Bytes) :
    (varIntGroups fuel value varint).length ≤ varint.length + fuel := by
  fun_induction varIntGroups fuel value varint with
  | case1 => exact le_rfl
  | case2 => omega
  | case3 =>
    rename_i ih
    rw [List.length_cons] at ih
    omega

/-! ## The tests for an overflow -/

theorem msb_ne_zero_iff (val : UInt64) : msb val 7 ≠ 0 ↔ 2 ^ 57 ≤ val.toNat := by
  rw [ne_eq, ← UInt64.toNat_inj, msb, Reftable.toNat_and_high]
  change ¬ 2 ^ 57 * (val.toNat / 2 ^ 57) = 0 ↔ _
  omega

theorem leadingZeros_lt_iff (val : UInt64) : leadingZeros val < 7 ↔ 2 ^ 57 ≤ val.toNat := by
  unfold leadingZeros
  split
  · rename_i hzero
    rw [hzero]
    decide
  · rename_i hne
    have hpos : val.toNat ≠ 0 := fun h => hne (UInt64.toNat_inj.mp h)
    rw [← le_log2 hpos]
    omega

theorem overflows_eq_false_iff (val : UInt64) :
    overflows val = false ↔ val ≠ 0 ∧ val.toNat < 2 ^ 57 := by
  have := not_congr (msb_ne_zero_iff val)
  simp only [overflows, Bool.or_eq_false_iff, beq_eq_false_iff_ne, bne_eq_false_iff_eq]
  rw [not_not, not_le] at this
  rw [this]

/-- The test of the port is the same. -/
theorem rust_overflows_eq : Rust.overflows = overflows := by
  funext val
  rw [Rust.overflows, overflows, Bool.eq_iff_iff]
  simp only [Bool.or_eq_true, beq_iff_eq, decide_eq_true_eq, bne_iff_ne]
  rw [leadingZeros_lt_iff, msb_ne_zero_iff]

/-- **The port** decodes as the original. -/
theorem rust_decodeVarint_eq (bufp : Bytes) : Rust.decodeVarint bufp = decodeVarint bufp := by
  rw [Rust.decodeVarint, decodeVarint, rust_overflows_eq]

/-! ## The decoders -/

/-- The number, if there is one. -/
def Decoded.number : Decoded → Option (UInt64 × Bytes)
  | .value val buf => some (val, buf)
  | .overflow => none
  | .pastEnd => none

/-- `get_var_int` fails where `decode_varint` reports an overflow or reads past the end. -/
theorem getVarIntLoop_eq (val : UInt64) (c : UInt8) (buf : Bytes) :
    getVarIntLoop val c buf = (decodeLoop overflows val c buf).number := by
  induction buf generalizing val c with
  | nil =>
    rw [getVarIntLoop, decodeLoop]
    split_ifs <;> rfl
  | cons c' buf ih =>
    rw [getVarIntLoop, decodeLoop]
    by_cases hc : c &&& 0x80 = 0
    · rw [if_pos hc, if_pos hc]
      rfl
    rw [if_neg hc, if_neg hc]
    have htest : (val + 1 = 0 ∨ (val + 1 : UInt64) &&& ((~~~0 : UInt64) <<< (64 - 7 : UInt64)) ≠ 0) ↔
        overflows (val + 1) = true := by
      rw [overflows, Bool.or_eq_true, beq_iff_eq, bne_iff_ne]
      rfl
    by_cases hover : overflows (val + 1) = true
    · rw [if_pos (htest.mpr hover), if_pos hover]
      rfl
    · rw [if_neg (fun h => hover (htest.mp h)), if_neg hover, ih]

variable {val : UInt64} {c : UInt8}

/-- The byte of a group, with the continuation bit or as the last one. -/
theorem restored_byte (hc : (c &&& 127).toUInt64 = val &&& 127) :
    (c &&& 128 ≠ 0 → (0x80 ||| (val &&& 0x7f)).toUInt8 = c) ∧
      (c &&& 128 = 0 → (val &&& 0x7f).toUInt8 = c) := by
  rw [show val &&& 0x7f = (c &&& 127).toUInt64 from hc.symm]
  clear hc
  induction c using forall_byte with
  | h n => revert n; decide +kernel

/-- Shifting in a group. -/
theorem shiftIn (hval : val.toNat < 2 ^ 57) (c : UInt8) :
    ((val <<< 7 + (c &&& 127).toUInt64) >>> 7 = val) ∧
      (val <<< 7 + (c &&& 127).toUInt64) &&& 127 = (c &&& 127).toUInt64 := by
  have hc : (c &&& 127).toUInt64.toNat < 128 := by
    exact lt_of_le_of_lt and_le_right (by decide)
  have hsum : (val <<< 7 + (c &&& 127).toUInt64).toNat =
      val.toNat * 128 + (c &&& 127).toUInt64.toNat := by
    rw [UInt64.toNat_add, UInt64.toNat_shiftLeft]
    simp only [UInt64.reduceToNat, shiftLeft_eq, Nat.reduceMod, Nat.reducePow] at hval ⊢
    omega
  constructor
  · apply UInt64.toNat_inj.mp
    rw [Reftable.toNat_shiftRight_seven, hsum]
    omega
  · apply UInt64.toNat_inj.mp
    rw [show (127 : UInt64) = 0x7f from rfl, Reftable.toNat_and_group, hsum]
    omega

/-- **What was decoded** is encoded as the bytes that were consumed: `above` are those in front of
the byte `c`, the groups of the value above the last one. -/
theorem decodeLoop_consumed {v : UInt64} {buf rest above : Bytes}
    (habove : ∀ tail, varIntGroups 9 val tail = above ++ tail)
    (hc : (c &&& 127).toUInt64 = val &&& 127) (h : decodeLoop overflows val c buf = .value v rest) :
    above ++ c :: buf = varInt v ++ rest := by
  have hends : c &&& 128 = 0 → varInt val = above ++ [c] := by
    intro hlast
    rw [varInt, (restored_byte hc).2 hlast, habove]
  induction buf generalizing val c above with
  | nil =>
    rw [decodeLoop] at h
    grind
  | cons c' buf ih =>
    rw [decodeLoop] at h
    split_ifs at h with hlast hover
    · grind
    -- the byte `c` becomes one of the groups above
    obtain ⟨hne, hlt⟩ := (overflows_eq_false_iff _).mp (by simpa using hover)
    obtain ⟨hshift, hgroup⟩ := shiftIn hlt c'
    have habove' : ∀ tail, varIntGroups 9 ((val + 1) <<< 7 + (c' &&& 127).toUInt64) tail =
        above ++ [c] ++ tail := by
      intro tail
      rw [← varIntGroups_fuel 1 (toNat_lt_groups _), varIntGroups, hshift, if_neg hne]
      dsimp only
      rw [UInt64.add_sub_cancel, (restored_byte hc).1 hlast, habove, List.append_assoc]
      rfl
    have hrest := ih habove' hgroup.symm h fun hlast' => by
      rw [varInt, (restored_byte hgroup.symm).2 hlast', habove']
    rw [← hrest, List.append_assoc]
    rfl

/-- **Decoding**: the bytes are an encoding with something behind it, or the decoder reports an
overflow and leaves the pointer where it was. -/
theorem decodeVarint_cases {bytes rest : Bytes} (h : decodeVarint bytes = some (val, rest)) :
    bytes = varInt val ++ rest ∧ getVarInt bytes = some (val, rest) ∨
      val = 0 ∧ rest = bytes ∧ getVarInt bytes = none := by
  cases bytes with
  | nil => cases h
  | cons c buf =>
    rw [decodeVarint, decodeWith] at h
    rw [getVarInt, show c &&& 0x7f = c &&& 127 from rfl, getVarIntLoop_eq]
    cases hloop : decodeLoop overflows (c &&& 127).toUInt64 c buf with
    | value v rest' =>
      rw [hloop] at h
      obtain ⟨rfl, rfl⟩ := Prod.mk.inj (Option.some.inj h)
      refine .inl ⟨?_, rfl⟩
      have hsmall : (c &&& 127).toUInt64.toNat < 128 := by
        exact lt_of_le_of_lt and_le_right (by decide)
      refine @decodeLoop_consumed _ _ _ _ _ [] (fun tail => ?_) ?_ hloop
      · -- there are no groups above the first byte
        refine if_pos (UInt64.toNat_inj.mp ?_)
        rw [Reftable.toNat_shiftRight_seven, div_eq_of_lt hsmall]
        rfl
      · apply UInt64.toNat_inj.mp
        rw [show (127 : UInt64) = 0x7f from rfl, Reftable.toNat_and_group, mod_eq_of_lt hsmall]
    | overflow =>
      rw [hloop] at h
      obtain ⟨rfl, rfl⟩ := Prod.mk.inj (Option.some.inj h)
      exact .inr ⟨rfl, rfl, rfl⟩
    | pastEnd =>
      rw [hloop] at h
      cases h

/-- `decode_varint` reads what `get_var_int` reads. -/
theorem decodeVarint_of_getVarInt {bytes rest : Bytes}
    (h : getVarInt bytes = some (val, rest)) : decodeVarint bytes = some (val, rest) := by
  cases bytes with
  | nil => cases h
  | cons c buf =>
    rw [getVarInt, show c &&& 0x7f = c &&& 127 from rfl, getVarIntLoop_eq] at h
    rw [decodeVarint, decodeWith]
    cases hloop : decodeLoop overflows (c &&& 127).toUInt64 c buf with
    | value v rest' =>
      rw [hloop] at h
      exact h
    | overflow | pastEnd =>
      rw [hloop] at h
      cases h

/-- **The three codecs agree and are bijective**: they write the same bytes, at most ten, and read
them back with anything behind them. Where the decoders return they return the same; either the
bytes they have consumed are the code of the value, or they report an overflow with the pointer
unmoved, and then `get_var_int` fails. -/
theorem varint_codecs_agree (v : UInt64) (suffix bytes : Bytes) :
    (encodeVarint v = varInt v ∧ Rust.encodeVarint v = varInt v ∧
      (∀ room, (varInt v).length ≤ room → putVarInt room v = .ok (varInt v)) ∧
      (varInt v).length ≤ 10) ∧
    (decodeVarint (varInt v ++ suffix) = some (v, suffix) ∧
      Rust.decodeVarint (varInt v ++ suffix) = some (v, suffix) ∧
      getVarInt (varInt v ++ suffix) = some (v, suffix)) ∧
    Rust.decodeVarint bytes = decodeVarint bytes ∧
    ∀ val rest, decodeVarint bytes = some (val, rest) →
      bytes = encodeVarint val ++ rest ∧ getVarInt bytes = some (val, rest) ∨
        val = 0 ∧ rest = bytes ∧ getVarInt bytes = none := by
  have hget := Reftable.getVarInt_varInt v suffix
  have hdecode := decodeVarint_of_getVarInt hget
  refine ⟨⟨encodeVarint_eq v, rust_encodeVarint_eq v, fun room hroom => ?_,
    length_varIntGroups_le 9 v _⟩,
    ⟨hdecode, ?_, hget⟩, rust_decodeVarint_eq bytes, fun val rest h => ?_⟩
  · exact if_neg (not_lt.mpr hroom)
  · rw [rust_decodeVarint_eq, hdecode]
  · rw [encodeVarint_eq]
    exact decodeVarint_cases h

end GitCore.Varint
