import GitCore.Delta.Create
import GitCore.Delta.Grammar
import Mathlib.Tactic.IntervalCases

/-! # What the decoder makes of the encoder's pieces

The pieces a delta is built from are those of its grammar: the size headers
(`getDeltaHdrSize_hdrSize`), insert opcodes (`opcodes_insert`) and copy opcodes (`opcodes_copyOp`). -/

namespace GitCore.Delta

/-! ## Size headers -/

/-- A header byte that is followed by another one. -/
theorem toNat_ofNat_or_80 (l : Nat) : (UInt8.ofNat (l ||| 0x80)).toNat = l % 128 + 128 := by
  have h : ∀ n : Fin 256, (n.val ||| 0x80) % 256 = n.val % 128 + 128 := by decide +kernel
  have hmod : (l ||| 0x80) % 256 = (l % 256 ||| 0x80) % 256 := by
    rw [show (256 : Nat) = 2 ^ 8 from rfl, Nat.or_mod_two_pow, Nat.or_mod_two_pow, Nat.mod_mod]
  have hl := h ⟨l % 256, Nat.mod_lt _ (by decide)⟩
  rw [UInt8.toNat_ofNat', show (2 : Nat) ^ 8 = 256 from rfl, hmod, hl]
  simp only
  omega

/-- A size header has at least one byte. -/
theorem putHdrSize_ne_nil (fuel l : Nat) : putHdrSize fuel l ≠ [] := by
  cases fuel with
  | zero => simp [putHdrSize]
  | succ fuel => rw [putHdrSize]; split <;> simp

/-- The last byte of a size header, which carries less than eight bits. -/
theorem sizeHeader_last {l : Nat} (hl : l < 128) : SizeHeader [UInt8.ofNat l] l := by
  have hbyte : (UInt8.ofNat l).toNat = l := by rw [UInt8.toNat_ofNat']; omega
  simpa [hbyte] using SizeHeader.last (b := UInt8.ofNat l) (by omega)

/-- The bytes that the loop stores are a size header. -/
theorem sizeHeader_putHdrSize {fuel l : Nat} (hl : l < 2 ^ (7 * (fuel + 1))) :
    SizeHeader (putHdrSize fuel l) l ∧ (putHdrSize fuel l).length ≤ fuel + 1 := by
  induction fuel generalizing l with
  | zero => exact ⟨sizeHeader_last (by simpa using hl), by simp [putHdrSize]⟩
  | succ fuel ih =>
    rw [putHdrSize]
    split
    next hge =>
      have hdiv : l >>> 7 = l / 128 := Nat.shiftRight_eq_div_pow l 7
      obtain ⟨hheader, hlength⟩ := ih (l := l >>> 7) (by grind)
      have hmore := SizeHeader.more (b := UInt8.ofNat (l ||| 0x80))
        (by rw [toNat_ofNat_or_80]; omega) hheader
      -- the value splits into the seven bits of this byte and the rest
      have hsplit : (l % 128 + 128) % 128 + 128 * (l / 128) = l := by omega
      rw [toNat_ofNat_or_80, hdiv, hsplit] at hmore
      rw [hdiv] at hlength ⊢
      exact ⟨hmore, Nat.succ_le_succ hlength⟩
    next hlt => exact ⟨sizeHeader_last (by omega), by simp⟩

/-- **Size headers read back.** -/
theorem getDeltaHdrSize_hdrSize {l : Nat} (hl : l < 2 ^ 64) (rest : Bytes) :
    getDeltaHdrSize 0 0 (hdrSize l ++ rest) = .ok (l, rest) := by
  obtain ⟨hheader, hlength⟩ := @sizeHeader_putHdrSize 9 l (hl.trans (by norm_num))
  exact hheader.getDeltaHdrSize_eq hl hlength rest

/-- A size header takes a byte, and a second one from 128 on. -/
theorem hdrSize_length (l : Nat) : 1 ≤ (hdrSize l).length ∧ (128 ≤ l → 2 ≤ (hdrSize l).length) := by
  refine ⟨List.length_pos_iff.mpr (putHdrSize_ne_nil 9 l), fun h => ?_⟩
  rw [hdrSize, putHdrSize, if_pos h, List.length_cons]
  have := List.length_pos_iff.mpr (putHdrSize_ne_nil 8 (l >>> 7))
  omega

/-! ## Parameters of a copy opcode -/

/-- The bits of a copy command are the parameters it announces. -/
theorem cpCmd_bits (o0 o1 o2 o3 s0 s1 : Bool) :
    (cpCmd o0 o1 o2 o3 s0 s1 &&& 0x80 ≠ 0) ∧
      (cpCmd o0 o1 o2 o3 s0 s1 &&& 0x01 ≠ 0 ↔ o0) ∧ (cpCmd o0 o1 o2 o3 s0 s1 &&& 0x02 ≠ 0 ↔ o1) ∧
      (cpCmd o0 o1 o2 o3 s0 s1 &&& 0x04 ≠ 0 ↔ o2) ∧ (cpCmd o0 o1 o2 o3 s0 s1 &&& 0x08 ≠ 0 ↔ o3) ∧
      (cpCmd o0 o1 o2 o3 s0 s1 &&& 0x10 ≠ 0 ↔ s0) ∧ (cpCmd o0 o1 o2 o3 s0 s1 &&& 0x20 ≠ 0 ↔ s1) ∧
      ¬ cpCmd o0 o1 o2 o3 s0 s1 &&& 0x40 ≠ 0 := by
  revert o0 o1 o2 o3 s0 s1
  decide

/-- A parameter byte reads back, whether it was stored or left out for being zero. -/
theorem parseCpParam_cpByte {cmd bit b : UInt8} (h : cmd &&& bit ≠ 0 ↔ decide (b ≠ 0)) (shift var : Nat)
    (rest : Bytes) :
    parseCpParam cmd bit shift var (cpByte b ++ rest) = .ok (var ||| (b.toNat <<< shift), rest) := by
  rw [decide_eq_true_iff] at h
  unfold parseCpParam
  by_cases hb : b = 0
  · rw [if_neg (by rw [h]; exact not_not.mpr hb), cpByte, if_pos hb, hb]
    simp
  · rw [if_pos (h.mpr hb), cpByte, if_neg hb]
    rfl

/-- A parameter that is not announced is not read. -/
theorem parseCpParam_absent {cmd bit : UInt8} (h : ¬ cmd &&& bit ≠ 0) (shift var : Nat)
    (data : Bytes) : parseCpParam cmd bit shift var data = .ok (var, data) := if_neg h

/-- Byte `k` as a number. -/
theorem toNat_byteAt (n k : Nat) : (byteAt n k).toNat = n / 2 ^ (8 * k) % 256 := by
  rw [byteAt, UInt8.toNat_ofNat', Nat.shiftRight_eq_div_pow]

/-- The four offset bytes of a copy opcode put together. -/
theorem or_byteAt_four {n : Nat} (h : n < 2 ^ 32) :
    0 ||| (byteAt n 0).toNat <<< 0 ||| (byteAt n 1).toNat <<< 8 ||| (byteAt n 2).toNat <<< 16
      ||| (byteAt n 3).toNat <<< 24 = n := by
  simp only [toNat_byteAt, Nat.zero_or, Nat.shiftLeft_zero]
  have h1 := or_shiftLeft_of_lt (i := 8) (by omega : n / 2 ^ (8 * 0) % 256 < 2 ^ 8)
    (n / 2 ^ (8 * 1) % 256)
  rw [h1, or_shiftLeft_of_lt (i := 16) (by omega)]
  rw [or_shiftLeft_of_lt (i := 24) (by omega)]
  omega

/-- The two size bytes of a copy opcode put together. -/
theorem or_byteAt_two {n : Nat} (h : n < 2 ^ 16) :
    0 ||| (byteAt n 0).toNat <<< 0 ||| (byteAt n 1).toNat <<< 8 = n := by
  simp only [toNat_byteAt, Nat.zero_or, Nat.shiftLeft_zero]
  rw [or_shiftLeft_of_lt (by omega)]
  omega

/-- **Copy parameters read back**, the size 0x10000 being the one whose bytes are all zero. -/
theorem parseCopy_copyOp {moff size : Nat} (hoff : moff < 2 ^ 32) (hpos : 0 < size)
    (hsize : size ≤ 0x10000) (rest : Bytes) :
    ∃ cmd params, copyOp moff size = cmd :: params ∧ cmd &&& 0x80 ≠ 0 ∧
      parseCopy cmd (params ++ rest) = .ok (moff, size, rest) := by
  refine ⟨_, _, rfl, (cpCmd_bits _ _ _ _ _ _).1, ?_⟩
  obtain ⟨-, h0, h1, h2, h3, h4, h5, h6⟩ := cpCmd_bits (byteAt moff 0 ≠ 0) (byteAt moff 1 ≠ 0)
    (byteAt moff 2 ≠ 0) (byteAt moff 3 ≠ 0) (byteAt size 0 ≠ 0) (byteAt size 1 ≠ 0)
  simp only [parseCopy, List.append_assoc, parseCpParam_cpByte h0, parseCpParam_cpByte h1,
    parseCpParam_cpByte h2, parseCpParam_cpByte h3, parseCpParam_cpByte h4, parseCpParam_cpByte h5,
    parseCpParam_absent h6, bind, Except.bind, or_byteAt_four hoff]
  by_cases hbig : size = 0x10000
  · subst hbig
    rfl
  · rw [or_byteAt_two (by omega), if_neg (by omega)]

/-! ## Opcodes -/

variable {src : Bytes}

/-- Opcode sequences compose. -/
theorem Opcodes.append {ops₁ t₁ ops₂ t₂ : Bytes} (h₁ : Opcodes src ops₁ t₁)
    (h₂ : Opcodes src ops₂ t₂) : Opcodes src (ops₁ ++ ops₂) (t₁ ++ t₂) := by
  induction h₁ with
  | nil => exact h₂
  | copy hcmd hoff hsize hn hsrc _ ih => simpa using Opcodes.copy hcmd hoff hsize hn hsrc ih
  | insert hcmd hne hlength _ ih => simpa using Opcodes.insert hcmd hne hlength ih

/-- **Insert opcode**: a run of 1 to 127 literals behind its count. -/
theorem opcodes_insert {lits : Bytes} (hpos : lits ≠ []) (hlen : lits.length < 128) :
    Opcodes src (UInt8.ofNat lits.length :: lits) lits := by
  have hpos' : 0 < lits.length := List.length_pos_iff.mpr hpos
  have hcmd : (UInt8.ofNat lits.length).toNat = lits.length := by rw [UInt8.toNat_ofNat']; omega
  have hne : UInt8.ofNat lits.length ≠ 0 := by
    intro h
    rw [h, UInt8.toNat_zero] at hcmd
    omega
  simpa using Opcodes.insert (by omega) hne hcmd.symm (@Opcodes.nil src)

/-- **Copy opcode**: a piece of the source of up to 64 KiB. -/
theorem opcodes_copyOp {moff size : Nat} (hoff : moff < 2 ^ 32) (hpos : 0 < size)
    (hsize : size ≤ 0x10000) (hsrc : moff + size ≤ src.length) :
    Opcodes src (copyOp moff size) ((src.drop moff).take size) := by
  obtain ⟨cmd, params, hop, hcmd, hparse⟩ := parseCopy_copyOp hoff hpos hsize []
  obtain ⟨offBytes, sizeBytes, n, hoffs, hsizes, hdata, hn⟩ := parseCopy_eq_ok_iff.mp hparse
  rw [List.append_nil] at hdata
  rw [hop, hdata]
  simpa using Opcodes.copy ((and_80_ne_zero_iff cmd).mp hcmd) hoffs hsizes hn hsrc .nil

/-- **A whole delta**: headers for the source and the target, then opcodes for the target. -/
theorem patchDelta_of_opcodes {trg ops : Bytes} (hsrc : src.length < 2 ^ 64)
    (htrg : trg.length < 2 ^ 64) (hops : Opcodes src ops trg)
    (hmin : deltaSizeMin ≤ (hdrSize src.length ++ hdrSize trg.length ++ ops).length) :
    patchDelta src (hdrSize src.length ++ hdrSize trg.length ++ ops) = .ok trg := by
  rw [patchDelta, if_neg (by omega), List.append_assoc, getDeltaHdrSize_hdrSize hsrc]
  simp only [bind, Except.bind]
  rw [if_neg (by simp), getDeltaHdrSize_hdrSize htrg]
  exact (patchLoop_eq_ok_iff hsrc le_rfl).mpr ⟨trg, hops, rfl, rfl⟩

end GitCore.Delta
