import Mathlib.Data.BitVec

/-! # Marker words

A compressed bitmap is a sequence of marker words with literal words behind each of them. The lowest
bit of a marker is the bit of a run, the next 32 bits are the length of the run in words, and the
upper 31 bits are the number of literal words that follow. -/

namespace GitCore.Ewah

open BitVec (eq_of_getLsbD_eq getLsbD_and getLsbD_not getLsbD_of_ge getLsbD_or)

/-- `eword_t` -/
abbrev Eword := BitVec 64

/-- `RLW_RUNNING_BITS` -/
def rlwRunningBits : Nat := 8 * 4

/-- `RLW_LITERAL_BITS` -/
def rlwLiteralBits : Nat := 8 * 8 - 1 - rlwRunningBits

/-- `RLW_LARGEST_RUNNING_COUNT` -/
def rlwLargestRunningCount : Eword := (1 <<< rlwRunningBits) - 1

/-- `RLW_LARGEST_LITERAL_COUNT` -/
def rlwLargestLiteralCount : Eword := (1 <<< rlwLiteralBits) - 1

/-- `RLW_LARGEST_RUNNING_COUNT_SHIFT` -/
def rlwLargestRunningCountShift : Eword := rlwLargestRunningCount <<< 1

/-- `RLW_RUNNING_LEN_PLUS_BIT` -/
def rlwRunningLenPlusBit : Eword := (1 <<< (rlwRunningBits + 1)) - 1

/-- `rlw_get_run_bit` -/
def rlwGetRunBit (word : Eword) : Bool := (word &&& 1) != 0

/-- `rlw_set_run_bit` -/
def rlwSetRunBit (word : Eword) (b : Bool) : Eword := if b then word ||| 1 else word &&& ~~~1

/-- `rlw_set_running_len` -/
def rlwSetRunningLen (word l : Eword) : Eword :=
  (word ||| rlwLargestRunningCountShift) &&& ((l <<< 1) ||| ~~~rlwLargestRunningCountShift)

/-- `rlw_get_running_len` -/
def rlwGetRunningLen (word : Eword) : Eword := (word >>> 1) &&& rlwLargestRunningCount

/-- `rlw_get_literal_words` -/
def rlwGetLiteralWords (word : Eword) : Eword := word >>> (1 + rlwRunningBits)

/-- `rlw_set_literal_words` -/
def rlwSetLiteralWords (word l : Eword) : Eword :=
  (word ||| ~~~rlwRunningLenPlusBit) &&& ((l <<< (rlwRunningBits + 1)) ||| rlwRunningLenPlusBit)

/-- `rlw_size` -/
def rlwSize (word : Eword) : Eword := rlwGetRunningLen word + rlwGetLiteralWords word

/-! ## The bits of a marker -/

/-- The bits of the masks. -/
theorem getLsbD_largestRunningCount : ∀ i < 64,
    rlwLargestRunningCount.getLsbD i = decide (i < 32) := by decide

theorem getLsbD_largestRunningCountShift : ∀ i < 64,
    rlwLargestRunningCountShift.getLsbD i = decide (1 ≤ i ∧ i < 33) := by decide

theorem getLsbD_runningLenPlusBit : ∀ i < 64,
    rlwRunningLenPlusBit.getLsbD i = decide (i < 33) := by decide

theorem getLsbD_one : ∀ i < 64, (1 : Eword).getLsbD i = decide (i = 0) := by decide

variable (word l : Eword) (b : Bool) {i : Nat}

/-- The run bit is bit 0. -/
theorem rlwGetRunBit_eq : rlwGetRunBit word = word.getLsbD 0 := by
  change (word &&& 1#64 != 0) = _
  rw [BitVec.and_one_eq_setWidth_ofBool_getLsbD]
  cases word.getLsbD 0 <;> rfl

/-- What `rlw_set_run_bit` does with each bit. -/
theorem getLsbD_setRunBit (hi : i < 64) :
    (rlwSetRunBit word b).getLsbD i = if i = 0 then b else word.getLsbD i := by
  cases b with
  | false =>
    rw [rlwSetRunBit, if_neg Bool.false_ne_true, getLsbD_and, getLsbD_not, getLsbD_one i hi]
    by_cases hzero : i = 0 <;> simp [hzero, hi]
  | true =>
    rw [rlwSetRunBit, if_pos rfl, getLsbD_or, getLsbD_one i hi]
    by_cases hzero : i = 0 <;> simp [hzero]

/-- What `rlw_set_running_len` does with each bit. -/
theorem getLsbD_setRunningLen (hi : i < 64) :
    (rlwSetRunningLen word l).getLsbD i =
      if 1 ≤ i ∧ i < 33 then l.getLsbD (i - 1) else word.getLsbD i := by
  rw [rlwSetRunningLen, getLsbD_and, getLsbD_or, getLsbD_or,
    getLsbD_not, getLsbD_largestRunningCountShift i hi, BitVec.getLsbD_shiftLeft]
  grind

/-- What `rlw_set_literal_words` does with each bit. -/
theorem getLsbD_setLiteralWords (hi : i < 64) :
    (rlwSetLiteralWords word l).getLsbD i =
      if i < 33 then word.getLsbD i else l.getLsbD (i - 33) := by
  rw [rlwSetLiteralWords, getLsbD_and, getLsbD_or, getLsbD_or,
    getLsbD_not, getLsbD_runningLenPlusBit i hi, BitVec.getLsbD_shiftLeft]
  by_cases hlow : i < 33 <;> simp [hlow, hi, rlwRunningBits]

/-- The running length is in bits 1 to 32. -/
theorem getLsbD_getRunningLen (hi : i < 64) :
    (rlwGetRunningLen word).getLsbD i = (decide (i < 32) && word.getLsbD (1 + i)) := by
  rw [rlwGetRunningLen, getLsbD_and, getLsbD_largestRunningCount i hi,
    BitVec.getLsbD_ushiftRight, Bool.and_comm]

/-- The number of literals is in the bits from 33 on. -/
theorem getLsbD_getLiteralWords (i : Nat) :
    (rlwGetLiteralWords word).getLsbD i = word.getLsbD (33 + i) := by
  rw [rlwGetLiteralWords, BitVec.getLsbD_ushiftRight]
  rfl

/-! ## Reading what was set -/

/-- The run bit that was set is read. -/
@[simp] theorem rlwGetRunBit_setRunBit : rlwGetRunBit (rlwSetRunBit word b) = b := by
  rw [rlwGetRunBit_eq, getLsbD_setRunBit word b (by decide), if_pos rfl]

/-- The running length is apart from the run bit. -/
@[simp] theorem rlwGetRunBit_setRunningLen :
    rlwGetRunBit (rlwSetRunningLen word l) = rlwGetRunBit word := by
  rw [rlwGetRunBit_eq, rlwGetRunBit_eq, getLsbD_setRunningLen word l (by decide),
    if_neg (by decide)]

/-- The number of literals is apart from the run bit. -/
@[simp] theorem rlwGetRunBit_setLiteralWords :
    rlwGetRunBit (rlwSetLiteralWords word l) = rlwGetRunBit word := by
  rw [rlwGetRunBit_eq, rlwGetRunBit_eq, getLsbD_setLiteralWords word l (by decide),
    if_pos (by decide)]

/-- The length of the run of a marker. -/
def runLen (word : Eword) : Nat := (rlwGetRunningLen word).toNat

/-- The number of literal words behind a marker. -/
def literalLen (word : Eword) : Nat := (rlwGetLiteralWords word).toNat

/-- The running length as a number. -/
theorem runLen_eq : runLen word = word.toNat / 2 % 2 ^ 32 := by
  exact Nat.and_two_pow_sub_one_eq_mod _ 32

/-- The number of literals as a number. -/
theorem literalLen_eq : literalLen word = word.toNat / 2 ^ 33 := by
  rw [literalLen, rlwGetLiteralWords, BitVec.toNat_ushiftRight, Nat.shiftRight_eq_div_pow]
  rfl

/-- A run has fewer than 2^32 words. -/
theorem runLen_lt : runLen word < 2 ^ 32 := by
  rw [runLen_eq]
  omega

/-- A segment has fewer than 2^31 literals. -/
theorem literalLen_lt : literalLen word < 2 ^ 31 := by
  rw [literalLen_eq]
  omega

/-- The sum of the two counts does not overflow. -/
theorem toNat_rlwSize : (rlwSize word).toNat = runLen word + literalLen word := by
  have hrun := runLen_lt word
  have hliteral := literalLen_lt word
  exact Nat.mod_eq_of_lt (show runLen word + literalLen word < 2 ^ 64 by omega)

variable {word l}

/-- The length of the run is in 32 bits. -/
theorem runLen_congr {word' : Eword}
    (h : ∀ i, 1 ≤ i ∧ i < 33 → word.getLsbD i = word'.getLsbD i) : runLen word = runLen word' := by
  refine congrArg BitVec.toNat (eq_of_getLsbD_eq fun i hi => ?_)
  rw [getLsbD_getRunningLen _ hi, getLsbD_getRunningLen _ hi]
  grind

/-- The number of literal words is in the upper bits. -/
theorem literalLen_congr {word' : Eword}
    (h : ∀ i, 33 ≤ i → i < 64 → word.getLsbD i = word'.getLsbD i) :
    literalLen word = literalLen word' := by
  refine congrArg BitVec.toNat (eq_of_getLsbD_eq fun i hi => ?_)
  rw [getLsbD_getLiteralWords, getLsbD_getLiteralWords]
  grind

/-- The fields do not touch each other. -/
@[simp] theorem runLen_setRunBit : runLen (rlwSetRunBit word b) = runLen word :=
  runLen_congr fun i hi => by rw [getLsbD_setRunBit _ _ (by omega), if_neg (by omega)]

/-- The run bit is apart from the number of literals. -/
@[simp] theorem literalLen_setRunBit : literalLen (rlwSetRunBit word b) = literalLen word :=
  literalLen_congr fun i hi hlt => by rw [getLsbD_setRunBit _ _ hlt, if_neg (by omega)]

/-- The running length is apart from the number of literals. -/
@[simp] theorem literalLen_setRunningLen :
    literalLen (rlwSetRunningLen word l) = literalLen word :=
  literalLen_congr fun i hi hlt => by rw [getLsbD_setRunningLen _ _ hlt, if_neg (by omega)]

/-- The number of literals is apart from the running length. -/
@[simp] theorem runLen_setLiteralWords : runLen (rlwSetLiteralWords word l) = runLen word :=
  runLen_congr fun i hi => by rw [getLsbD_setLiteralWords _ _ (by omega), if_pos hi.2]

variable (word)

/-- A running length that fits is read back. -/
theorem runLen_setRunningLen (h : l.toNat < 2 ^ 32) :
    runLen (rlwSetRunningLen word l) = l.toNat := by
  have hshift : runLen (rlwSetRunningLen word l) = runLen (l <<< 1) := by
    refine runLen_congr fun i hi => ?_
    rw [getLsbD_setRunningLen _ _ (by omega), if_pos hi, BitVec.getLsbD_shiftLeft]
    simp [show i < 64 by omega, Nat.not_lt.mpr hi.1]
  rw [hshift, runLen_eq, BitVec.toNat_shiftLeft, Nat.shiftLeft_eq]
  omega

/-- A number of literals that fits is read back. -/
theorem literalLen_setLiteralWords (h : l.toNat < 2 ^ 31) :
    literalLen (rlwSetLiteralWords word l) = l.toNat := by
  have hshift : literalLen (rlwSetLiteralWords word l) = literalLen (l <<< 33) := by
    refine literalLen_congr fun i hi hlt => ?_
    rw [getLsbD_setLiteralWords _ _ hlt, if_neg (by omega), BitVec.getLsbD_shiftLeft]
    simp [hlt, Nat.not_lt.mpr hi]
  rw [hshift, literalLen_eq, BitVec.toNat_shiftLeft, Nat.shiftLeft_eq]
  omega

/-- A marker that was just pushed. -/
theorem zero_marker : rlwGetRunBit 0 = false ∧ runLen 0 = 0 ∧ literalLen 0 = 0 := by decide

end GitCore.Ewah
