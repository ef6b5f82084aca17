import GitCore.Reftable.Record
import Mathlib.Data.Nat.Bitwise

/-! # Integers and searching in reftables

Fixed-width big-endian integers, variable-width integers, common prefixes and the binary search of
`basics.c` and `record.c`. A `struct string_view` that is read from is the list of the bytes that
are left; one that is written to is the number of bytes there is room for. -/

namespace GitCore.Reftable

open Nat List

/-! ## Big-endian integers -/

/-- `reftable_put_be16` -/
def putBe16 (i : Nat) : Bytes := [UInt8.ofNat (i >>> 8), UInt8.ofNat i]

/-- `reftable_put_be32` -/
def putBe32 (i : Nat) : Bytes :=
  [UInt8.ofNat (i >>> 24), UInt8.ofNat (i >>> 16), UInt8.ofNat (i >>> 8), UInt8.ofNat i]

/-- `reftable_put_be24` -/
def putBe24 (i : Nat) : Bytes := [UInt8.ofNat (i >>> 16), UInt8.ofNat (i >>> 8), UInt8.ofNat i]

/-- `reftable_get_be16`, `none` past the end of the data. -/
def getBe16 : Bytes → Option Nat
  | p0 :: p1 :: _ => some (p0.toNat * 2 ^ 8 + p1.toNat)
  | _ => none

/-- `reftable_get_be24`, `none` past the end of the data. -/
def getBe24 : Bytes → Option Nat
  | p0 :: p1 :: p2 :: _ => some (p0.toNat * 2 ^ 16 + p1.toNat * 2 ^ 8 + p2.toNat)
  | _ => none

/-- `reftable_get_be32`, `none` past the end of the data. -/
def getBe32 : Bytes → Option Nat
  | p0 :: p1 :: p2 :: p3 :: _ =>
    some (p0.toNat * 2 ^ 24 + p1.toNat * 2 ^ 16 + p2.toNat * 2 ^ 8 + p3.toNat)
  | _ => none

/-- `reftable_get_be64`, `none` past the end of the data. -/
def getBe64 : Bytes → Option UInt64
  | p0 :: p1 :: p2 :: p3 :: p4 :: p5 :: p6 :: p7 :: _ =>
    some (UInt64.ofNat (p0.toNat * 2 ^ 56 + p1.toNat * 2 ^ 48 + p2.toNat * 2 ^ 40 +
      p3.toNat * 2 ^ 32 + p4.toNat * 2 ^ 24 + p5.toNat * 2 ^ 16 + p6.toNat * 2 ^ 8 + p7.toNat))
  | _ => none

variable {i : Nat}

theorem getBe16_putBe16 (h : i < 2 ^ 16) (rest : Bytes) :
    getBe16 (putBe16 i ++ rest) = some i := by
  simp only [putBe16, cons_append, getBe16, UInt8.toNat_ofNat', shiftRight_eq_div_pow]
  congr 1
  omega

theorem getBe24_putBe24 (h : i < 2 ^ 24) (rest : Bytes) :
    getBe24 (putBe24 i ++ rest) = some i := by
  simp only [putBe24, cons_append, getBe24, UInt8.toNat_ofNat', shiftRight_eq_div_pow]
  congr 1
  omega

theorem getBe32_putBe32 (h : i < 2 ^ 32) (rest : Bytes) :
    getBe32 (putBe32 i ++ rest) = some i := by
  simp only [putBe32, cons_append, getBe32, UInt8.toNat_ofNat', shiftRight_eq_div_pow]
  congr 1
  omega

variable (v : UInt64)

theorem getBe64_putBe64 (rest : Bytes) : getBe64 (putBe64 v ++ rest) = some v := by
  have hv := v.toNat_lt
  simp only [putBe64, cons_append, getBe64, UInt64.toNat_toUInt8, UInt64.toNat_shiftRight,
    UInt64.reduceToNat, Nat.reduceMod, shiftRight_eq_div_pow]
  congr 1
  apply UInt64.toNat_inj.mp
  rw [UInt64.toNat_ofNat_of_lt' (show _ < 2 ^ 64 by omega)]
  omega

@[simp] theorem length_putBe32 (i : Nat) : (putBe32 i).length = 4 := rfl

@[simp] theorem length_putBe64 : (putBe64 v).length = 8 := rfl

@[simp] theorem length_putBe16 (i : Nat) : (putBe16 i).length = 2 := rfl

@[simp] theorem length_putBe24 (i : Nat) : (putBe24 i).length = 3 := rfl

/-! ## Variable-width integers -/

/-- The loop of `put_var_int`: the groups of seven bits above the last one, each but the lowest
one less than the value it stands for. The array `varint` has room for nine of them. -/
def varIntGroups : Nat → UInt64 → Bytes → Bytes
  | 0, _, varint => varint
  | fuel + 1, value, varint =>
    let value := value >>> 7
    if value = 0 then varint
    else
      let value := value - 1
      varIntGroups fuel value ((0x80 ||| (value &&& 0x7f)).toUInt8 :: varint)

/-- The bytes that `put_var_int` assembles. -/
def varInt (value : UInt64) : Bytes := varIntGroups 9 value [(value &&& 0x7f).toUInt8]

/-- `put_var_int` with room for `room` bytes. -/
def putVarInt (room : Nat) (value : UInt64) : Except ReftableError Bytes :=
  if room < (varInt value).length then .error .entryTooBig else .ok (varInt value)

/-- The loop of `get_var_int` after the byte `c`. -/
def getVarIntLoop (val : UInt64) (c : UInt8) : Bytes → Option (UInt64 × Bytes)
  | [] =>
    if c &&& 0x80 = 0 then some (val, []) else none
  | c' :: rest =>
    if c &&& 0x80 = 0 then some (val, c' :: rest)
    else
      let val := val + 1
      -- overflow
      if val = 0 ∨ val &&& ((~~~0 : UInt64) <<< (64 - 7)) ≠ 0 then none
      else getVarIntLoop ((val <<< 7) + (c' &&& 0x7f).toUInt64) c' rest

/-- `get_var_int`: the value and the bytes behind it. -/
def getVarInt : Bytes → Option (UInt64 × Bytes)
  | [] => none
  | c :: rest => getVarIntLoop (c &&& 0x7f).toUInt64 c rest

section VarInt

/-- Shifting out a group. -/
theorem toNat_shiftRight_seven : (v >>> 7).toNat = v.toNat / 128 := by
  simp [shiftRight_eq_div_pow]

/-- The lowest group. -/
theorem toNat_and_group : (v &&& 0x7f).toNat = v.toNat % 128 := by
  rw [UInt64.toNat_and, show (0x7f : UInt64).toNat = 2 ^ 7 - 1 from rfl, and_two_pow_sub_one_eq_mod]

/-- Appending a group to the groups above it. -/
theorem shiftLeft_add_group : (v >>> 7) <<< 7 + (v &&& 0x7f) = v := by
  apply UInt64.toNat_inj.mp
  have hv := v.toNat_lt
  rw [UInt64.toNat_add, UInt64.toNat_shiftLeft, toNat_shiftRight_seven, toNat_and_group]
  simp only [UInt64.reduceToNat, shiftLeft_eq, Nat.reduceMod, Nat.reducePow]
  omega

/-- The value of the groups above the lowest one, less one. -/
theorem toNat_shiftRight_sub_one {v : UInt64} (h : v >>> 7 ≠ 0) :
    (v >>> 7 - 1).toNat = v.toNat / 128 - 1 := by
  have hle : (1 : UInt64) ≤ v >>> 7 := Nat.pos_of_ne_zero fun hzero => h (UInt64.toNat_inj.mp hzero)
  rw [UInt64.toNat_sub_of_le _ _ hle, toNat_shiftRight_seven]
  rfl

/-- The top seven bits. -/
theorem toNat_and_high :
    (v &&& ((~~~0 : UInt64) <<< (64 - 7))).toNat = 2 ^ 57 * (v.toNat / 2 ^ 57) := by
  have hmask : ((~~~0 : UInt64) <<< (64 - 7)).toNat = 2 ^ 57 * (2 ^ 7 - 1) := by decide
  rw [UInt64.toNat_and, hmask]
  apply eq_of_testBit_eq
  intro i
  rw [testBit_and, testBit_two_pow_mul, testBit_two_pow_mul, testBit_two_pow_sub_one,
    testBit_div_two_pow]
  by_cases hi : 57 ≤ i
  · rw [Nat.sub_add_cancel hi]
    by_cases hi' : i < 64
    · simp [hi, show i - 57 < 7 by omega]
    have hlt : v.toNat < 2 ^ i :=
      v.toNat_lt.trans_le (Nat.pow_le_pow_right Nat.two_pos (Nat.le_of_not_lt hi'))
    simp [testBit_lt_two_pow hlt]
  · simp [hi]

/-- The groups above the lowest one leave the check for an overflow alone. -/
theorem shiftRight_and_high : (v >>> 7) &&& ((~~~0 : UInt64) <<< (64 - 7)) = 0 := by
  apply UInt64.toNat_inj.mp
  have := v.toNat_lt
  rw [toNat_and_high, toNat_shiftRight_seven, div_eq_of_lt (by omega)]
  rfl

/-- A group is one of 128 numbers. -/
theorem exists_group : ∃ n < 128, v &&& 0x7f = UInt64.ofNat n := by
  refine ⟨v.toNat % 128, mod_lt _ (by decide), ?_⟩
  rw [← toNat_and_group, UInt64.ofNat_toNat]

/-- The byte of a group, with the continuation bit or as the last one. -/
theorem group_byte :
    ((0x80 ||| (v &&& 0x7f)).toUInt8 &&& 0x80 ≠ 0 ∧
      ((0x80 ||| (v &&& 0x7f)).toUInt8 &&& 0x7f).toUInt64 = v &&& 0x7f) ∧
    (v &&& 0x7f).toUInt8 &&& 0x80 = 0 ∧ ((v &&& 0x7f).toUInt8 &&& 0x7f).toUInt64 = v &&& 0x7f := by
  obtain ⟨n, hn, hv⟩ := exists_group v
  rw [hv]
  clear hv
  revert n
  decide +kernel

/-- Groups written in front of a byte that holds the lowest group of `value` are read as `value`. -/
theorem getVarInt_varIntGroups (fuel : Nat) (value : UInt64) (c : UInt8) (tail : Bytes)
    (hfuel : value.toNat < 2 ^ (7 * (fuel + 1))) (hc : (c &&& 0x7f).toUInt64 = value &&& 0x7f) :
    getVarInt (varIntGroups fuel value (c :: tail)) = getVarIntLoop value c tail := by
  have hsmall : value.toNat < 128 → (c &&& 0x7f).toUInt64 = value := by
    intro h
    apply UInt64.toNat_inj.mp
    rw [hc, toNat_and_group, mod_eq_of_lt h]
  induction fuel generalizing value c tail with
  | zero => rw [varIntGroups, getVarInt, hsmall (by simpa using hfuel)]
  | succ fuel ih =>
    have hshift := toNat_shiftRight_seven value
    rw [varIntGroups]
    split
    · rename_i hzero
      rw [hzero] at hshift
      rw [getVarInt, hsmall]
      change 0 = _ at hshift
      omega
    rename_i hne
    -- the byte in front holds the groups above, less one
    obtain ⟨hcont, hgroup⟩ := (group_byte (value >>> 7 - 1)).1
    rw [ih (value >>> 7 - 1) _ _ ?_ hgroup ?_]
    · rw [getVarIntLoop, if_neg hcont]
      rw [UInt64.sub_add_cancel, if_neg, hc, shiftLeft_add_group]
      rw [not_or, not_not]
      exact ⟨hne, shiftRight_and_high value⟩
    · rw [toNat_shiftRight_sub_one hne]
      grind
    · intro hlt
      apply UInt64.toNat_inj.mp
      rw [hgroup, toNat_and_group, mod_eq_of_lt hlt]

theorem varIntGroups_append (fuel : Nat) (value : UInt64) (varint tail : Bytes) :
    varIntGroups fuel value varint ++ tail = varIntGroups fuel value (varint ++ tail) := by
  induction fuel generalizing value varint with
  | zero => rfl
  | succ fuel ih =>
    rw [varIntGroups, varIntGroups]
    split
    · rfl
    · rw [ih]
      rfl

/-- Reading a variable-width integer restores it. -/
@[simp] theorem getVarInt_varInt (value : UInt64) (rest : Bytes) :
    getVarInt (varInt value ++ rest) = some (value, rest) := by
  obtain ⟨hend, hgroup⟩ := (group_byte value).2
  rw [varInt, varIntGroups_append, cons_append, nil_append,
    getVarInt_varIntGroups 9 value _ rest (by have := value.toNat_lt; omega) hgroup]
  cases rest <;> rw [getVarIntLoop, if_pos hend]

theorem varInt_ne_nil (value : UInt64) : varInt value ≠ [] := by
  intro h
  have hread := getVarInt_varInt value []
  rw [h] at hread
  cases hread

end VarInt

example : varInt 0x3fff = [0xfe, 0x7f] := by decide

/-! ## Common prefixes -/

/-- `common_prefix_size` -/
def commonPrefixSize : Bytes → Bytes → Nat
  | a :: as, b :: bs => if a = b then commonPrefixSize as bs + 1 else 0
  | _, _ => 0

theorem take_commonPrefixSize (a b : Bytes) :
    a.take (commonPrefixSize a b) = b.take (commonPrefixSize a b) := by
  fun_induction commonPrefixSize a b with
  | case1 x a b ih => rw [take_succ_cons, take_succ_cons, ih]
  | case2 => rfl
  | case3 => simp

theorem commonPrefixSize_le_left (a b : Bytes) : commonPrefixSize a b ≤ a.length := by
  fun_induction commonPrefixSize a b with
  | case1 x a b ih => exact succ_le_succ ih
  | case2 | case3 => exact zero_le _

theorem commonPrefixSize_le_right (a b : Bytes) : commonPrefixSize a b ≤ b.length := by
  have hlen := congrArg List.length (take_commonPrefixSize a b)
  have hle := commonPrefixSize_le_left a b
  rw [length_take, length_take] at hlen
  omega

/-! ## Binary search -/

/-- The loop of `binsearch` on the interval from `lo` to `hi`. -/
def binsearchLoop (f : Nat → Option Bool) : Nat → Nat → Nat → Option (Nat × Nat)
  | 0, lo, hi => some (lo, hi)
  | fuel + 1, lo, hi =>
    if hi - lo > 1 then
      let mid := lo + (hi - lo) / 2
      match f mid with
      | none => none
      | some true => binsearchLoop f fuel lo mid
      | some false => binsearchLoop f fuel mid hi
    else some (lo, hi)

/-- `binsearch`; `none` when `f` has reported an error, which is what the caller asks first. -/
def binsearch (sz : Nat) (f : Nat → Option Bool) : Option Nat :=
  match binsearchLoop f sz 0 sz with
  | none => none
  | some (lo, hi) =>
    if lo ≠ 0 then some hi
    else
      match f 0 with
      | none => none
      | some true => some 0
      | some false => some 1

/-- What `binsearch` returns behind its loop, and its calls of `f` there. -/
def binsearchEnd (f : Nat → Int) (lo hi : Nat) : Nat × List Nat :=
  if lo ≠ 0 then (hi, []) else (if f 0 ≠ 0 then 0 else 1, [0])

/-- `binsearch` on the interval from `lo` to `hi` with an `f` that returns an `int`, and its calls. -/
def binsearchFrom (sz : Nat) (f : Nat → Int) : Nat → Nat → Nat → Nat × List Nat
  | 0, lo, hi => binsearchEnd f lo hi
  | fuel + 1, lo, hi =>
    if hi - lo > 1 then
      let mid := lo + (hi - lo) / 2
      let r :=
        if f mid < 0 then (sz, [])
        else if f mid > 0 then binsearchFrom sz f fuel lo mid
        else binsearchFrom sz f fuel mid hi
      (r.1, mid :: r.2)
    else binsearchEnd f lo hi

/-- `binsearch` with an `f` that returns an `int`: the result, and the calls of `f`. -/
def binsearchInt (sz : Nat) (f : Nat → Int) : Nat × List Nat := binsearchFrom sz f sz 0 sz

/-- A search calls `f` below `sz`, finds the first positive value, and stops at an error, when it
returns `onError`. -/
structure Searches (sz : Nat) (f : Nat → Int) (onError : Nat → Nat) (r : Nat × List Nat) : Prop where
  calls_lt : ∀ i ∈ r.2, i < sz
  smallest : (∀ i ∈ r.2, 0 ≤ f i) → r.1 ≤ sz ∧ (∀ i < r.1, f i ≤ 0) ∧ (r.1 < sz → 0 < f r.1)
  aborts : ∀ i ∈ r.2, f i < 0 → r.2.getLast? = some i ∧ r.1 = onError i

/-- What the code returns for an error: the start counts as positive. -/
def errorResult (sz i : Nat) : Nat := if i = 0 then 0 else sz

section Binsearch

variable {sz fuel lo hi : Nat}

variable {f : Nat → Int}

theorem zero_notMem_binsearchFrom (hlo : 0 < lo) : 0 ∉ (binsearchFrom sz f fuel lo hi).2 := by
  induction fuel generalizing lo hi with
  | zero => simp [binsearchFrom, binsearchEnd, hlo.ne']
  | succ fuel ih =>
    have hmid : 0 < lo + (hi - lo) / 2 := by omega
    rw [binsearchFrom]
    dsimp only
    split_ifs
    · simp [hmid.ne]
    · simp [hmid.ne, ih hlo]
    · simp [hmid.ne, ih hmid]
    · simp [binsearchEnd, hlo.ne']

/-- The first index is called if `f` is positive at all halves of the size. -/
theorem zero_mem_binsearchFrom (hfuel : hi ≤ fuel + 1) : 0 ∈ (binsearchFrom sz f fuel 0 hi).2 ↔
    ∀ k, 0 < hi / 2 ^ (k + 1) → 0 < f (hi / 2 ^ (k + 1)) := by
  induction fuel generalizing hi with
  | zero =>
    refine iff_of_true mem_cons_self fun k hk => absurd hk ?_
    rw [Nat.div_eq_of_lt (hfuel.trans_lt (Nat.one_lt_two_pow k.succ_ne_zero))]
    exact Nat.lt_irrefl 0
  | succ fuel ih =>
    have hhalf : ∀ k, hi / 2 ^ (k + 1 + 1) = hi / 2 / 2 ^ (k + 1) := fun k => by
      rw [Nat.div_div_eq_div_mul, ← pow_succ']
    rw [← and_forall_add_one, binsearchFrom]
    simp only [hhalf, zero_add, pow_one, Nat.sub_zero]
    split_ifs with hlt hneg hpos
    · simp [hneg.not_gt]; omega
    · rw [← ih (by omega)]
      simp [hpos]; omega
    · simp [hpos, zero_notMem_binsearchFrom (show 0 < hi / 2 by omega)]; omega
    · simp [binsearchEnd, show hi / 2 = 0 by omega]

section

variable (hf : ∀ i j, i ≤ j → j < sz → 0 < f i → f j ≠ 0) (hsz : hi ≤ sz)
  (hlo : lo = 0 ∨ f lo = 0) (hhi : hi = sz ∨ 0 < f hi)
include hf hsz hlo hhi

theorem searches_binsearchEnd (h : hi = lo + 1) :
    Searches sz f (errorResult sz) (binsearchEnd f lo hi) := by
  subst h
  rw [binsearchEnd]
  split_ifs with hne hzero
  · refine ⟨by simp, fun _ => ⟨hsz, fun i hi => ?_, fun hlt => hhi.resolve_left hlt.ne⟩, by simp⟩
    exact not_lt.mp fun hpos => hf i lo (le_of_lt_succ hi) hsz hpos (hlo.resolve_left hne)
  · refine ⟨by simp; omega, fun hcalls => ⟨zero_le _, by simp, fun _ => ?_⟩, by simp [errorResult]⟩
    exact (hcalls 0 mem_cons_self).lt_of_ne' hzero
  · obtain rfl := not_not.mp hne
    have hzero := not_not.mp hzero
    refine ⟨by simp; omega, fun _ => ⟨hsz, fun i hi => ?_, fun hlt => hhi.resolve_left hlt.ne⟩, ?_⟩
    · rw [lt_one_iff.mp hi, hzero]
    · simp [hzero]

/-- The loop halves the interval and keeps `f` zero at its start and positive at its end. -/
theorem searches_binsearchFrom (hlt : lo < hi) (hfuel : hi - lo ≤ fuel + 1) :
    Searches sz f (errorResult sz) (binsearchFrom sz f fuel lo hi) := by
  induction fuel generalizing lo hi with
  | zero => exact searches_binsearchEnd hf hsz hlo hhi (by omega)
  | succ fuel ih =>
    rw [binsearchFrom]
    split
    swap
    · exact searches_binsearchEnd hf hsz hlo hhi (by omega)
    dsimp only
    have hmid : lo + (hi - lo) / 2 < sz := by omega
    -- a call without an error comes before those of the rest of the search
    have hcons : ∀ r, 0 ≤ f (lo + (hi - lo) / 2) → Searches sz f (errorResult sz) r →
        Searches sz f (errorResult sz) (r.1, (lo + (hi - lo) / 2) :: r.2) := by
      intro r hpos h
      refine ⟨forall_mem_cons.mpr ⟨hmid, h.calls_lt⟩,
        fun hcalls => h.smallest (forall_mem_cons.mp hcalls).2,
        forall_mem_cons.mpr ⟨fun hneg => absurd hneg hpos.not_gt, fun i hi hneg => ?_⟩⟩
      obtain ⟨hlast, herror⟩ := h.aborts i hi hneg
      exact ⟨by rw [getLast?_cons, hlast]; rfl, herror⟩
    split_ifs with hneg hpos
    · exact ⟨by simpa, by simp [hneg], by simp [errorResult]; omega⟩
    · exact hcons _ hpos.le (ih (by omega) hlo (.inr hpos) (by omega) (by omega))
    · have hzero := le_antisymm (not_lt.mp hpos) (not_lt.mp hneg)
      exact hcons _ hzero.ge (ih hsz (.inr hzero) hhi (by omega) (by omega))

omit hsz hlo hhi

theorem searches_binsearchInt (hpos : 0 < sz) : Searches sz f (errorResult sz) (binsearchInt sz f) :=
  searches_binsearchFrom hf le_rfl (.inl rfl) (.inl rfl) hpos (by omega)

/-- **The contract in the header** holds unless there is nothing to search or the call for the first
index, which is the last one, reports an error. It is made if the halves of the size are positive. -/
theorem searches_binsearchInt_iff : Searches sz f (fun _ => sz) (binsearchInt sz f) ↔ 0 < sz ∧
    ((∀ k, 0 < sz / 2 ^ (k + 1) → 0 < f (sz / 2 ^ (k + 1))) → 0 ≤ f 0) := by
  rw [← @zero_mem_binsearchFrom sz sz sz f (by omega)]
  constructor
  · intro h
    have hpos : 0 < sz := by
      by_contra hzero
      obtain rfl : sz = 0 := by omega
      exact absurd (h.calls_lt 0 mem_cons_self) (Nat.lt_irrefl 0)
    refine ⟨hpos, fun hmem => not_lt.mp fun hneg => hpos.ne' ?_⟩
    exact (h.aborts 0 hmem hneg).2.symm.trans ((searches_binsearchInt hf hpos).aborts 0 hmem hneg).2
  · rintro ⟨hpos, hzero⟩
    obtain ⟨hcalls, hsmallest, haborts⟩ := searches_binsearchInt hf hpos
    refine ⟨hcalls, hsmallest, fun i hi hneg => ?_⟩
    have hne : i ≠ 0 := by
      rintro rfl
      exact hneg.not_ge (hzero hi)
    exact (haborts i hi hneg).imp_right fun h => h.trans (if_neg hne)

end

/-- A search with the first positive value in the middle. -/
theorem searches_binsearchInt_two : Searches 2 (fun i => i) (fun _ => 2) (binsearchInt 2 fun i => i) :=
  (searches_binsearchInt_iff (by omega)).mpr ⟨by decide, fun _ => by decide⟩

/-- With nothing to search `f` is called all the same. -/
theorem not_searches_binsearchInt_zero :
    ¬ Searches 0 (fun _ => 0) (fun _ => 0) (binsearchInt 0 fun _ => 0) :=
  fun h => absurd (h.calls_lt 0 (by decide)) (by decide)

variable {f : Nat → Option Bool} {p : Nat → Bool}

/-- Without errors it does not matter how `f` reports them. -/
theorem binsearch_eq_int (hpos : 0 < sz) (hf : ∀ i < sz, f i = some (p i)) :
    binsearch sz f = some (binsearchInt sz fun i => if p i then 1 else 0).1 := by
  have hloop : ∀ fuel lo hi, hi ≤ sz → ∃ lo' hi', binsearchLoop f fuel lo hi = some (lo', hi') ∧
      (binsearchFrom sz (fun i => if p i then 1 else 0) fuel lo hi).1 =
        (binsearchEnd (fun i => if p i then 1 else 0) lo' hi').1 := by
    intro fuel
    induction fuel with
    | zero => exact fun lo hi _ => ⟨lo, hi, rfl, rfl⟩
    | succ fuel ih =>
      intro lo hi hsz
      rw [binsearchLoop, binsearchFrom]
      split
      · dsimp only
        rw [hf _ (by omega)]
        cases p (lo + (hi - lo) / 2) with
        | true => exact ih _ _ (by omega)
        | false => exact ih _ _ hsz
      · exact ⟨lo, hi, rfl, rfl⟩
  obtain ⟨lo, hi, hsome, hint⟩ := hloop sz 0 sz le_rfl
  rw [binsearch, hsome, binsearchInt, hint, hf 0 hpos, binsearchEnd]
  cases p 0 <;> split_ifs <;> simp_all

/-- A search over a predicate that is false up to some point and true from there finds the
point. -/
theorem binsearch_spec (hsz : 0 < sz) (hf : ∀ i < sz, f i = some (p i))
    (hmono : ∀ i j, i ≤ j → j < sz → p i = true → p j = true) :
    ∃ r ≤ sz, binsearch sz f = some r ∧ (∀ i < r, p i = false) ∧
      ∀ i, r ≤ i → i < sz → p i = true := by
  have hpos : ∀ i, 0 < (if p i then 1 else 0 : Int) ↔ p i = true := fun i => by
    cases p i <;> decide
  obtain ⟨hle, hbefore, hfirst⟩ :=
    (searches_binsearchInt (f := fun i => if p i then 1 else 0) (fun i j hij hj hi =>
      ((hpos j).mpr (hmono i j hij hj ((hpos i).mp hi))).ne') hsz).smallest fun i _ => by
        split <;> decide
  refine ⟨_, hle, binsearch_eq_int hsz hf, fun i hi => ?_, fun i hi hlt => ?_⟩
  · exact Bool.eq_false_iff.mpr fun h => (hbefore i hi).not_gt ((hpos i).mpr h)
  · exact hmono _ i hi hlt ((hpos _).mp (hfirst (hi.trans_lt hlt)))

end Binsearch

end GitCore.Reftable
