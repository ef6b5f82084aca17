import GitCore.Delta.Patch

/-! # The grammar of deltas

A delta is two size headers and a sequence of opcodes (`IsDelta`). `patch_delta` decides it on every
delta whose headers end where a reader expects them to (`HeadersSafe`). -/

namespace GitCore.Delta

open List

/-! ## Size headers -/

/-- A size header: seven bits a byte, the lowest first; every byte but the last announces another. -/
inductive SizeHeader : Bytes → Nat → Prop
  | last {b : UInt8} : b.toNat < 128 → SizeHeader [b] b.toNat
  | more {b : UInt8} {h : Bytes} {n : Nat} : 128 ≤ b.toNat → SizeHeader h n →
      SizeHeader (b :: h) (b.toNat % 128 + 128 * n)

/-- The bits of a header -/
def hdrValue : Bytes → Nat
  | [] => 0
  | b :: h => b.toNat % 128 + 128 * hdrValue h

/-- The bytes of a delta that a header takes, and those behind it. -/
def splitHdr : Bytes → Bytes × Bytes
  | [] => ([], [])
  | b :: data => if b.toNat < 128 then ([b], data) else (b :: (splitHdr data).1, (splitHdr data).2)

theorem splitHdr_append (data : Bytes) : (splitHdr data).1 ++ (splitHdr data).2 = data := by
  induction data with
  | nil => rfl
  | cons b data ih => rw [splitHdr]; split <;> simp [ih]

variable {h : Bytes} {n : Nat}

/-- A header has a value and is found by its end. -/
theorem SizeHeader.splitHdr_eq (hh : SizeHeader h n) (rest : Bytes) :
    splitHdr (h ++ rest) = (h, rest) ∧ hdrValue h = n := by
  induction hh with
  | last hb => simp [splitHdr, hdrValue, hb, Nat.mod_eq_of_lt]
  | more hb _ ih => simp [splitHdr, hdrValue, Nat.not_lt.mpr hb, ih]

/-- A header that ends. -/
theorem sizeHeader_splitHdr {data : Bytes} (h : ∃ b ∈ data, b.toNat < 128) :
    SizeHeader (splitHdr data).1 (hdrValue (splitHdr data).1) := by
  fun_induction splitHdr data with
  | case1 => simp at h
  | case2 b data hb => simpa [hdrValue, Nat.mod_eq_of_lt hb] using SizeHeader.last hb
  | case3 b data hb ih => exact .more (Nat.not_lt.mp hb) (ih (by simpa [hb] using h))

/-- A header without an end takes all bytes. -/
theorem splitHdr_of_forall {data : Bytes} (h : ∀ b ∈ data, 128 ≤ b.toNat) :
    splitHdr data = (data, []) := by
  induction data with
  | nil => rfl
  | cons b data ih =>
    simp only [forall_mem_cons] at h
    simp [splitHdr, Nat.not_lt.mpr h.1, ih h.2]

/-- Or-ing bits above a number adds them. -/
theorem or_shiftLeft_of_lt {size i : Nat} (h : size < 2 ^ i) (bits : Nat) :
    size ||| (bits <<< i) = size + bits * 2 ^ i := by
  rw [Nat.shiftLeft_eq, Nat.or_comm, mul_comm, ← Nat.two_pow_add_eq_or_of_lt h]
  ring

/-- The low seven bits of a byte. -/
theorem toNat_and_7f (b : UInt8) : (b &&& 0x7f).toNat = b.toNat % 128 := by
  exact Nat.and_two_pow_sub_one_eq_mod b.toNat 7

/-- The continuation bit of a byte. -/
theorem and_80_ne_zero_iff (b : UInt8) : b &&& 0x80 ≠ 0 ↔ 128 ≤ b.toNat := by
  have h : ∀ n : Fin 256, (UInt8.ofNat n.val &&& 0x80 ≠ 0 ↔ 128 ≤ n.val) := by decide +kernel
  simpa using h ⟨b.toNat, b.toNat_lt⟩

/-- `st_left_shift` dies on the bits that would leave 64. -/
theorem shiftRight_lt_iff {bits i size : Nat} (hi : i < 64) (hsize : size < 2 ^ i) :
    (2 ^ 64 - 1) >>> i < bits ↔ 2 ^ 64 ≤ size + 2 ^ i * bits := by
  have hpow : 2 ^ i * 2 ^ (64 - i) = 2 ^ 64 := by rw [← pow_add]; congr; omega
  rw [Nat.shiftRight_eq_div_pow, Nat.div_lt_iff_lt_mul (Nat.two_pow_pos i), Nat.mul_comm bits]
  constructor
  · omega
  intro h
  by_contra hlt
  have hbits : bits < 2 ^ (64 - i) := by
    by_contra hge
    have := Nat.mul_le_mul_left (2 ^ i) (Nat.not_lt.mp hge)
    omega
  have := Nat.mul_le_mul_left (2 ^ i) (Nat.succ_le_of_lt hbits)
  rw [hpow, Nat.mul_succ] at this
  omega

/-- **Reading a header** after `k` bytes of it: it dies on a value that is too large, and has no
defined behaviour on an eleventh byte. -/
theorem getDeltaHdrSize_eq {k size : Nat} {data : Bytes} (hk : k ≤ 10) (hsize : size < 2 ^ (7 * k))
    (hsize' : size < 2 ^ 64) (hne : data ≠ []) :
    getDeltaHdrSize (7 * k) size data =
      if 2 ^ 64 ≤ size + 2 ^ (7 * k) * hdrValue ((splitHdr data).1.take (10 - k)) then .error .die
      else if 10 - k < (splitHdr data).1.length then .error .outOfBounds
      else .ok (size + 2 ^ (7 * k) * hdrValue (splitHdr data).1, (splitHdr data).2) := by
  induction data generalizing k size with
  | nil => exact absurd rfl hne
  | cons cmd data ih =>
    obtain ⟨h, rest, hsplit, hrest⟩ : ∃ h rest, splitHdr (cmd :: data) = (cmd :: h, rest) ∧
        if 128 ≤ cmd.toNat ∧ data ≠ [] then splitHdr data = (h, rest) else h = [] ∧ rest = data := by
      rw [splitHdr]
      split
      next hb => exact ⟨[], data, rfl, by simp [hb]⟩
      next hb =>
        refine ⟨_, _, rfl, ?_⟩
        cases data <;> simp [Nat.not_lt.mp hb, splitHdr]
    rw [getDeltaHdrSize, hsplit]
    simp only [and_80_ne_zero_iff, toNat_and_7f]
    by_cases hk10 : k = 10
    · -- the value is shifted by its full width
      simpa [hk10, hdrValue] using hsize'
    obtain ⟨j, hj⟩ : ∃ j, 10 - k = j + 1 := ⟨9 - k, by omega⟩
    have hj' : 10 - (k + 1) = j := by omega
    have hshift := @shiftRight_lt_iff (cmd.toNat % 128) _ _ (by omega) hsize
    have hpow : 2 ^ (7 * (k + 1)) = 2 ^ (7 * k) * 128 := pow_add 2 (7 * k) 7
    have hbits : 2 ^ (7 * k) * (cmd.toNat % 128) ≤ 2 ^ (7 * k) * 127 :=
      Nat.mul_le_mul_left _ (by omega)
    simp only [hj, take_succ_cons, hdrValue, Nat.mul_add, ← Nat.mul_assoc, ← hpow,
      ← Nat.add_assoc, length_cons, Nat.add_lt_add_iff_right, or_shiftLeft_of_lt hsize]
    rw [if_neg (by omega), Nat.mul_comm (cmd.toNat % 128)]
    split
    · rw [if_pos (by omega)]
    split at hrest
    next hmore =>
      rw [if_pos hmore, show 7 * k + 7 = 7 * (k + 1) by omega,
        ih (by omega) (by omega) (by omega) hmore.2, hrest, hj']
    next hend =>
      obtain ⟨rfl, rfl⟩ := hrest
      simp [hend, hdrValue]
      omega

/-- The header of a delta is too long to be read. -/
def LongHdr (data : Bytes) : Prop :=
  10 < (splitHdr data).1.length ∧ hdrValue ((splitHdr data).1.take 10) < 2 ^ 64

/-- The value of a part is that of the header or less. -/
theorem hdrValue_take_le (h : Bytes) (n : Nat) : hdrValue (h.take n) ≤ hdrValue h := by
  induction h generalizing n with
  | nil => simp
  | cons b h ih =>
    cases n with
    | zero => exact Nat.zero_le _
    | succ n => exact Nat.add_le_add_left (Nat.mul_le_mul_left 128 (ih n)) _

/-- **Reading a header** -/
theorem getDeltaHdrSize_cases {data : Bytes} (hne : data ≠ []) :
    LongHdr data ∧ getDeltaHdrSize 0 0 data = .error .outOfBounds ∨
      ¬ LongHdr data ∧ (hdrValue (splitHdr data).1 < 2 ^ 64 ∧
          getDeltaHdrSize 0 0 data = .ok (hdrValue (splitHdr data).1, (splitHdr data).2) ∨
        2 ^ 64 ≤ hdrValue (splitHdr data).1 ∧ getDeltaHdrSize 0 0 data = .error .die) := by
  have htake := hdrValue_take_le (splitHdr data).1 10
  rw [getDeltaHdrSize_eq (k := 0) (by omega) (by omega) (by omega) hne, LongHdr]
  simp only [Nat.mul_zero, Nat.pow_zero, Nat.one_mul, Nat.zero_add, Nat.sub_zero]
  split
  next hdie => exact .inr ⟨by omega, .inr ⟨by omega, rfl⟩⟩
  next hdie =>
    split
    next hlong => exact .inl ⟨⟨hlong, by omega⟩, rfl⟩
    next hlong =>
      rw [take_of_length_le (by omega)] at hdie ⊢
      exact .inr ⟨by omega, .inl ⟨by omega, rfl⟩⟩

/-- **Reading back** a header of the grammar -/
theorem SizeHeader.getDeltaHdrSize_eq (hh : SizeHeader h n) (hn : n < 2 ^ 64)
    (hlength : h.length ≤ 10) (rest : Bytes) : getDeltaHdrSize 0 0 (h ++ rest) = .ok (n, rest) := by
  obtain ⟨hsplit, rfl⟩ := hh.splitHdr_eq rest
  have hne : h ++ rest ≠ [] := by rintro heq; simp [append_eq_nil_iff.mp heq] at hh; cases hh
  have hcases := getDeltaHdrSize_cases hne
  simp only [LongHdr, hsplit] at hcases
  grind

/-! ## Opcodes -/

/-- The bytes of parameters and the number they make: a byte for each bit of the command. -/
inductive Params (cmd : UInt8) : List (UInt8 × Nat) → Bytes → Nat → Prop
  | nil : Params cmd [] [] 0
  | absent {bit shift ps bytes n} : cmd &&& bit = 0 → Params cmd ps bytes n →
      Params cmd ((bit, shift) :: ps) bytes n
  | present {bit shift ps b bytes n} : cmd &&& bit ≠ 0 → Params cmd ps bytes n →
      Params cmd ((bit, shift) :: ps) (b :: bytes) ((b.toNat <<< shift) ||| n)

/-- The bits for the offset of a copy -/
def offParams : List (UInt8 × Nat) := [(0x01, 0), (0x02, 8), (0x04, 16), (0x08, 24)]

/-- The bits for the size of a copy -/
def sizeParams : List (UInt8 × Nat) := [(0x10, 0), (0x20, 8), (0x40, 16)]

/-- The opcodes of a delta and the bytes they stand for -/
inductive Opcodes (src : Bytes) : Bytes → Bytes → Prop
  | nil : Opcodes src [] []
  | copy {cmd offBytes sizeBytes off n size ops out} : 128 ≤ cmd.toNat →
      Params cmd offParams offBytes off → Params cmd sizeParams sizeBytes n →
      size = (if n = 0 then 0x10000 else n) → off + size ≤ src.length → Opcodes src ops out →
      Opcodes src (cmd :: (offBytes ++ (sizeBytes ++ ops))) ((src.drop off).take size ++ out)
  | insert {cmd : UInt8} {literal ops out} : cmd.toNat < 128 → cmd ≠ 0 →
      literal.length = cmd.toNat → Opcodes src ops out →
      Opcodes src (cmd :: (literal ++ ops)) (literal ++ out)

/-- A sequence of `PARSE_CP_PARAM` -/
def parseParams (cmd : UInt8) : List (UInt8 × Nat) → Nat → Bytes → Except PatchFailure (Nat × Bytes)
  | [], var, data => pure (var, data)
  | (bit, shift) :: ps, var, data => do
      let (var, data) ← parseCpParam cmd bit shift var data
      parseParams cmd ps var data

variable {cmd : UInt8}

/-- **Parameters** are parsed as the grammar has them. -/
theorem parseParams_eq_ok_iff {ps : List (UInt8 × Nat)} {var v : Nat} {data rest : Bytes} :
    parseParams cmd ps var data = .ok (v, rest) ↔
      ∃ bytes n, Params cmd ps bytes n ∧ data = bytes ++ rest ∧ v = var ||| n := by
  induction ps generalizing var data with
  | nil =>
    constructor
    · rintro ⟨⟩
      exact ⟨[], 0, .nil, rfl, (Nat.or_zero v).symm⟩
    · rintro ⟨_, _, ⟨⟩, rfl, rfl⟩
      rw [parseParams, Nat.or_zero]
      rfl
  | cons p ps ih =>
    obtain ⟨bit, shift⟩ := p
    by_cases hbit : cmd &&& bit = 0
    · simp only [parseParams, parseCpParam, if_neg (not_not.mpr hbit), bind, Except.bind, ih]
      constructor
      · rintro ⟨bytes, n, hp, h⟩
        exact ⟨bytes, n, .absent hbit hp, h⟩
      rintro ⟨bytes, n, hp, h⟩
      cases hp with
      | absent _ hp => exact ⟨bytes, n, hp, h⟩
      | present hne _ => exact absurd hbit hne
    · simp only [parseParams, parseCpParam, if_pos hbit]
      constructor
      · intro h
        cases data with
        | nil => cases h
        | cons b data =>
          obtain ⟨bytes, n, hp, rfl, rfl⟩ := ih.mp h
          exact ⟨b :: bytes, _, .present hbit hp, rfl, Nat.or_assoc _ _ _⟩
      · rintro ⟨_, _, hp, rfl, rfl⟩
        cases hp with
        | absent hzero _ => exact absurd hzero hbit
        | present _ hp => exact ih.mpr ⟨_, _, hp, rfl, (Nat.or_assoc _ _ _).symm⟩

theorem parseCopy_eq (cmd : UInt8) (data : Bytes) : parseCopy cmd data = (do
    let (off, data) ← parseParams cmd offParams 0 data
    let (size, data) ← parseParams cmd sizeParams 0 data
    .ok (off, if size = 0 then 0x10000 else size, data)) := by
  simp [parseCopy, parseParams, offParams, sizeParams]

/-- **The parameters of a copy** -/
theorem parseCopy_eq_ok_iff {off size : Nat} {data rest : Bytes} :
    parseCopy cmd data = .ok (off, size, rest) ↔ ∃ offBytes sizeBytes n,
      Params cmd offParams offBytes off ∧ Params cmd sizeParams sizeBytes n ∧
      data = offBytes ++ (sizeBytes ++ rest) ∧ size = if n = 0 then 0x10000 else n := by
  rw [parseCopy_eq]
  constructor
  · intro h
    cases hoff : parseParams cmd offParams 0 data with
    | error e => rw [hoff] at h; cases h
    | ok p =>
      cases hsize : parseParams cmd sizeParams 0 p.2 with
      | error e => simp [hoff, hsize, bind, Except.bind] at h
      | ok q =>
        obtain ⟨offBytes, off, hoff', hdata, hp⟩ := parseParams_eq_ok_iff.mp hoff
        obtain ⟨sizeBytes, n, hsize', hdata', hq⟩ := parseParams_eq_ok_iff.mp hsize
        simp [hoff, hsize, bind, Except.bind, hp, hq] at h
        grind
  · rintro ⟨offBytes, sizeBytes, n, hoff, hsize, rfl, rfl⟩
    rw [parseParams_eq_ok_iff.mpr ⟨offBytes, off, hoff, rfl, (Nat.zero_or off).symm⟩]
    simp only [bind, Except.bind]
    rw [parseParams_eq_ok_iff.mpr ⟨sizeBytes, n, hsize, rfl, (Nat.zero_or n).symm⟩]

/-! ## The replay loop -/

variable {src data out res : Bytes} {size : Nat}

/-- `memcpy` behind `out`, in a buffer with room for `cap` bytes -/
def memcpy (cap : Nat) (out : Bytes) (source : Bytes) (off len : Nat) : Except PatchFailure Bytes :=
  if off + len ≤ source.length ∧ out.length + len ≤ cap then
    .ok (out ++ (source.drop off).take len)
  else .error .outOfBounds

/-- `patchLoop` with the bounds of each `memcpy` -/
def patchLoopChecked (src : Bytes) (cap : Nat) : Nat → Bytes → Nat → Bytes → Except PatchFailure Bytes
  | _, [], size, out => if size = 0 then .ok out else .error .null
  | 0, _ :: _, _, _ => .error .null
  | fuel + 1, cmd :: data, size, out =>
    if cmd &&& 0x80 ≠ 0 then do
      let (cpOff, cpSize, data) ← parseCopy cmd data
      if 2 ^ 64 ≤ cpOff + cpSize ∨ src.length < cpOff + cpSize ∨ size < cpSize then .error .null
      else
        let out ← memcpy cap out src cpOff cpSize
        patchLoopChecked src cap fuel data (size - cpSize) out
    else if cmd ≠ 0 then
      if size < cmd.toNat ∨ data.length < cmd.toNat then .error .null
      else do
        let out ← memcpy cap out data 0 cmd.toNat
        patchLoopChecked src cap fuel (data.drop cmd.toNat) (size - cmd.toNat) out
    else .error .null

/-- **No copy** reads outside its buffer or writes more than the size in the header. -/
theorem patchLoopChecked_eq {cap fuel : Nat} (h : out.length + size = cap) :
    patchLoopChecked src cap fuel data size out = patchLoop src fuel data size out := by
  induction fuel generalizing data size out with
  | zero => cases data <;> rfl
  | succ fuel ih =>
    cases data with
    | nil => rfl
    | cons cmd data =>
      rw [patchLoopChecked, patchLoop]
      split
      · cases parseCopy cmd data with
        | error e => rfl
        | ok p =>
          simp only [bind, Except.bind]
          split
          · rfl
          next hfit =>
            rw [memcpy, if_pos (by omega)]
            exact ih (by simp; omega)
      · split
        · split
          · rfl
          next hfit =>
            rw [memcpy, if_pos (by omega), drop_zero]
            exact ih (by simp; omega)
        · rfl

/-- What neither part of a computation ends in. -/
theorem bind_ne_error {α β ε : Type} {x : Except ε α} {f : α → Except ε β} {e : ε}
    (hx : x ≠ .error e) (hf : ∀ a, f a ≠ .error e) : x >>= f ≠ .error e := by
  cases x with
  | error e' => exact fun h => hx (congrArg _ (Except.error.inj h))
  | ok a => exact hf a

theorem parseCopy_ne_outOfBounds : parseCopy cmd data ≠ .error .outOfBounds := by
  have hparam : ∀ bit shift var data, parseCpParam cmd bit shift var data ≠ .error .outOfBounds := by
    intro bit shift var data
    unfold parseCpParam
    split
    · cases data <;> exact nofun
    · exact nofun
  repeat' first | exact hparam _ _ _ _ | refine bind_ne_error ?_ fun _ => ?_ | exact nofun

theorem patchLoop_nil (fuel : Nat) :
    patchLoop src fuel [] size out = if size = 0 then .ok out else .error .null := by
  cases fuel <;> rfl

variable {fuel : Nat}

theorem patchLoop_ne_outOfBounds : patchLoop src fuel data size out ≠ .error .outOfBounds := by
  induction fuel generalizing data size out with
  | zero =>
    cases data with
    | nil => rw [patchLoop_nil]; split <;> exact nofun
    | cons => exact nofun
  | succ fuel ih =>
    cases data with
    | nil => rw [patchLoop_nil]; split <;> exact nofun
    | cons cmd data =>
      rw [patchLoop]
      split
      · refine bind_ne_error parseCopy_ne_outOfBounds fun p => ?_
        dsimp only
        split
        · exact nofun
        · exact ih
      · split
        · split
          · exact nofun
          · exact ih
        · exact nofun

/-- A copy is replayed if it fits. -/
theorem patchLoop_copy_iff (hsrc : src.length < 2 ^ 64) (hcmd : 128 ≤ cmd.toNat) :
    patchLoop src (fuel + 1) (cmd :: data) size out = .ok res ↔
      ∃ off n rest, parseCopy cmd data = .ok (off, n, rest) ∧ off + n ≤ src.length ∧ n ≤ size ∧
        patchLoop src fuel rest (size - n) (out ++ (src.drop off).take n) = .ok res := by
  rw [patchLoop, if_pos ((and_80_ne_zero_iff cmd).mpr hcmd)]
  cases parseCopy cmd data with
  | error e => simp [bind, Except.bind]
  | ok p =>
    obtain ⟨off, n, rest⟩ := p
    simp only [bind, Except.bind, Except.ok.injEq, Prod.mk.injEq]
    grind

/-- **The replay loop** accepts the opcodes whose output has the size. -/
theorem patchLoop_eq_ok_iff (hsrc : src.length < 2 ^ 64) (hfuel : data.length ≤ fuel) :
    patchLoop src fuel data size out = .ok res ↔
      ∃ t, Opcodes src data t ∧ t.length = size ∧ res = out ++ t := by
  have hnil : ∀ fuel size out, patchLoop src fuel [] size out = .ok res ↔
      ∃ t, Opcodes src [] t ∧ t.length = size ∧ res = out ++ t := by
    intro fuel size out
    rw [patchLoop_nil]
    constructor
    · intro h
      split at h
      next hzero => exact ⟨[], .nil, hzero.symm, by simpa using (Except.ok.inj h).symm⟩
      next => cases h
    · rintro ⟨_, ⟨⟩, rfl, rfl⟩
      simp
  induction fuel generalizing data size out with
  | zero =>
    grind
  | succ fuel ih =>
    cases data with
    | nil => exact hnil _ size out
    | cons cmd data =>
      have hfuel : data.length ≤ fuel := Nat.le_of_succ_le_succ hfuel
      by_cases hcmd : 128 ≤ cmd.toNat
      · rw [patchLoop_copy_iff hsrc hcmd]
        constructor
        · rintro ⟨off, n, rest, hcopy, hoff, hn, h⟩
          obtain ⟨offBytes, sizeBytes, m, hoffs, hsizes, rfl, hm⟩ := parseCopy_eq_ok_iff.mp hcopy
          obtain ⟨t, ht, hlength, rfl⟩ := (ih (by simp at hfuel; omega)).mp h
          exact ⟨_, .copy hcmd hoffs hsizes hm hoff ht, by simp; omega, by rw [append_assoc]⟩
        rintro ⟨_, ht, hlength, rfl⟩
        cases ht with
        | copy _ hoffs hsizes hm hoff ht =>
          refine ⟨_, _, _, parseCopy_eq_ok_iff.mpr ⟨_, _, _, hoffs, hsizes, rfl, hm⟩, hoff, ?_, ?_⟩
          · simp at hlength; omega
          · refine (ih (by simp at hfuel; omega)).mpr ⟨_, ht, ?_, by rw [append_assoc]⟩
            simp at hlength; omega
        | insert hlt _ _ _ => omega
      · rw [patchLoop, if_neg (mt (and_80_ne_zero_iff cmd).mp hcmd)]
        constructor
        · intro h
          split at h
          next hne =>
            split at h
            · cases h
            next hfit =>
              obtain ⟨t, ht, hlength, rfl⟩ := (ih (by simp; omega)).mp h
              refine ⟨data.take cmd.toNat ++ t, ?_, by simp; omega, by rw [append_assoc]⟩
              have hliteral : (data.take cmd.toNat).length = cmd.toNat := by simp; omega
              have := Opcodes.insert (Nat.not_le.mp hcmd) hne hliteral ht
              rwa [take_append_drop] at this
          · cases h
        · rintro ⟨_, ht, hlength, rfl⟩
          cases ht with
          | copy hge => exact absurd hge hcmd
          | insert _ hne hliteral ht =>
            simp only [length_append] at hlength hfuel
            rw [if_pos hne, if_neg (by simp; omega), take_left' hliteral, drop_left' hliteral]
            exact (ih (by omega)).mpr ⟨_, ht, by omega, by rw [append_assoc]⟩

/-! ## Accepting -/

/-- A delta for a source, and what it makes of it. -/
structure IsDelta (src delta out : Bytes) : Prop where
  long : 4 ≤ delta.length
  parses : ∃ h₁ h₂ ops, delta = h₁ ++ (h₂ ++ ops) ∧ SizeHeader h₁ src.length ∧
    SizeHeader h₂ out.length ∧ Opcodes src ops out
  size_lt : out.length < 2 ^ 64

/-- `patchDelta` with the bounds of each `memcpy` -/
def patchDeltaChecked (src delta : Bytes) : Except PatchFailure Bytes :=
  if delta.length < deltaSizeMin then .error .null
  else do
    let (size, data) ← getDeltaHdrSize 0 0 delta
    if size ≠ src.length then .error .null
    else
      let (size, data) ← getDeltaHdrSize 0 0 data
      patchLoopChecked src size data.length data size []

/-- Exactly the deltas for a source are accepted, within the buffers. -/
structure DecidesDelta (src delta : Bytes) : Prop where
  accepts : ∀ out, patchDelta src delta = .ok out ↔ IsDelta src delta out
  bounds : patchDeltaChecked src delta = patchDelta src delta ∧
    patchDelta src delta ≠ .error .outOfBounds

/-- The decoder does not misread the headers: neither has more than ten bytes, and behind one that
matches the source there is more than bytes that announce another one and have no bits. -/
def HeadersSafe (src delta : Bytes) : Prop :=
  4 ≤ delta.length → ¬ LongHdr delta ∧ (hdrValue (splitHdr delta).1 = src.length →
    ¬ LongHdr (splitHdr delta).2 ∧ ∃ b ∈ (splitHdr delta).2, b ≠ 0x80)

theorem patchDeltaChecked_eq (src delta : Bytes) :
    patchDeltaChecked src delta = patchDelta src delta := by
  have hloop : ∀ (data : Bytes) (size : Nat), patchLoopChecked src size data.length data size [] =
      patchLoop src data.length data size [] := fun _ _ => patchLoopChecked_eq (Nat.zero_add _)
  simp only [patchDeltaChecked, patchDelta, hloop]

variable {delta : Bytes}

/-- **The first header** of a delta -/
theorem patchDelta_cases (hlong : 4 ≤ delta.length) (hsrc : src.length < 2 ^ 64) :
    LongHdr delta ∧ patchDelta src delta = .error .outOfBounds ∨
      ¬ LongHdr delta ∧ (hdrValue (splitHdr delta).1 = src.length ∧
          patchDelta src delta = (do
            let (size, data) ← getDeltaHdrSize 0 0 (splitHdr delta).2
            patchLoop src data.length data size []) ∨
        hdrValue (splitHdr delta).1 ≠ src.length ∧
          (patchDelta src delta = .error .null ∨ patchDelta src delta = .error .die)) := by
  have hne : delta ≠ [] := ne_nil_of_length_pos (by omega)
  rw [patchDelta, if_neg (show ¬ delta.length < deltaSizeMin from Nat.not_lt.mpr hlong)]
  rcases getDeltaHdrSize_cases hne with ⟨hlong, heq⟩ | ⟨hlong, ⟨-, heq⟩ | ⟨hbig, heq⟩⟩
  · exact .inl ⟨hlong, by rw [heq]; rfl⟩
  · refine .inr ⟨hlong, ?_⟩
    rw [heq]
    by_cases hvalue : hdrValue (splitHdr delta).1 = src.length
    · exact .inl ⟨hvalue, by simp [bind, Except.bind, hvalue]⟩
    · exact .inr ⟨hvalue, .inl (by simp [bind, Except.bind, hvalue])⟩
  · exact .inr ⟨hlong, .inr ⟨by omega, .inr (by rw [heq]; rfl)⟩⟩

theorem SizeHeader.exists_last (hh : SizeHeader h n) : ∃ b ∈ h, b.toNat < 128 := by
  induction hh with
  | last hb => exact ⟨_, mem_singleton_self _, hb⟩
  | more _ _ ih => simp [ih]

/-- A header of nothing but continuation bits -/
theorem hdrValue_eq_zero_iff : hdrValue data = 0 ↔ ∀ b ∈ data, b.toNat % 128 = 0 := by
  induction data with
  | nil => simp [hdrValue]
  | cons b data ih => simp [hdrValue, ih]

/-- The headers of a delta are found by their ends. -/
theorem IsDelta.splitHdr_eq (h : IsDelta src delta out) :
    hdrValue (splitHdr delta).1 = src.length ∧
      SizeHeader (splitHdr (splitHdr delta).2).1 out.length ∧
      Opcodes src (splitHdr (splitHdr delta).2).2 out := by
  obtain ⟨h₁, h₂, ops, rfl, hh₁, hh₂, hops⟩ := h.parses
  obtain ⟨hsplit₁, hvalue₁⟩ := hh₁.splitHdr_eq (h₂ ++ ops)
  obtain ⟨hsplit₂, -⟩ := hh₂.splitHdr_eq ops
  grind

/-- **A delta with safe headers** is replayed as the grammar has it. -/
theorem patchLoop_eq_ok_iff_isDelta (hlong : 4 ≤ delta.length) (hsrc : src.length < 2 ^ 64)
    (hvalue : hdrValue (splitHdr delta).1 = src.length) (hbits : ∃ b ∈ (splitHdr delta).2, b ≠ 0x80)
    (hlt : hdrValue (splitHdr (splitHdr delta).2).1 < 2 ^ 64) :
    patchLoop src (splitHdr (splitHdr delta).2).2.length (splitHdr (splitHdr delta).2).2
        (hdrValue (splitHdr (splitHdr delta).2).1) [] = .ok out ↔ IsDelta src delta out := by
  rw [patchLoop_eq_ok_iff hsrc le_rfl]
  constructor
  · rintro ⟨t, hops, hlength, rfl⟩
    -- a header without an end leaves nothing behind it
    have hends₁ : ∃ b ∈ delta, b.toNat < 128 := by
      by_contra hall
      push Not at hall
      simp [splitHdr_of_forall hall] at hbits
    have hends₂ : ∃ b ∈ (splitHdr delta).2, b.toNat < 128 := by
      by_contra hall
      push Not at hall
      rw [splitHdr_of_forall hall] at hops hlength
      cases hops
      obtain ⟨b, hb, hne⟩ := hbits
      have hzero := hdrValue_eq_zero_iff.mp hlength.symm b hb
      have hge := hall b hb
      have hb := b.toNat_lt
      exact hne (UInt8.toNat_inj.mp (show b.toNat = 128 by omega))
    have hheader := sizeHeader_splitHdr hends₂
    rw [← hlength] at hheader hlt
    refine ⟨hlong, ⟨_, _, _, ?_, hvalue ▸ sizeHeader_splitHdr hends₁, hheader, hops⟩, hlt⟩
    rw [splitHdr_append, splitHdr_append]
  · intro h
    obtain ⟨-, hheader, hops⟩ := h.splitHdr_eq
    have := (hheader.splitHdr_eq []).2
    exact ⟨out, hops, this.symm, rfl⟩

/-- **Deltas are decided**: `patch_delta` accepts exactly the deltas for its source and stays within
its buffers unless it misreads a header. -/
theorem decidesDelta_iff (hsrc : src.length < 2 ^ 64) :
    DecidesDelta src delta ↔ HeadersSafe src delta := by
  constructor
  · rintro ⟨haccepts, -, hbounds⟩ hlong
    rcases patchDelta_cases hlong hsrc with ⟨-, heq⟩ | ⟨hshort, ⟨hvalue, heq⟩ | ⟨hvalue, -⟩⟩
    · exact absurd heq hbounds
    · refine ⟨hshort, fun _ => ?_⟩
      have hne : (splitHdr delta).2 ≠ [] := by
        intro hnil
        rw [hnil] at heq
        exact hbounds heq
      rcases getDeltaHdrSize_cases hne with ⟨-, hread⟩ | ⟨hshort', hread⟩
      · rw [hread] at heq
        exact absurd heq hbounds
      refine ⟨hshort', ?_⟩
      by_contra hall
      push Not at hall
      -- a header without an end, read as an empty result
      have hsplit : splitHdr (splitHdr delta).2 = ((splitHdr delta).2, []) :=
        splitHdr_of_forall fun b hb => by simp [hall b hb]
      have hzero : hdrValue (splitHdr delta).2 = 0 :=
        hdrValue_eq_zero_iff.mpr fun b hb => by simp [hall b hb]
      simp only [hsplit, hzero] at hread
      rw [hread.resolve_right (by simp) |>.2] at heq
      obtain ⟨-, hheader, -⟩ := ((haccepts []).mp heq).splitHdr_eq
      rw [hsplit] at hheader
      obtain ⟨b, hb, hlt⟩ := hheader.exists_last
      simp [hall b hb] at hlt
    · exact ⟨hshort, fun h => absurd h hvalue⟩
  · intro hsafe
    suffices h : (∀ out, patchDelta src delta = .ok out ↔ IsDelta src delta out) ∧
        patchDelta src delta ≠ .error .outOfBounds from ⟨h.1, patchDeltaChecked_eq src delta, h.2⟩
    by_cases hlong : 4 ≤ delta.length
    · obtain ⟨hshort, hsecond⟩ := hsafe hlong
      rcases patchDelta_cases hlong hsrc with ⟨h, -⟩ | ⟨-, ⟨hvalue, heq⟩ | ⟨hvalue, heq⟩⟩
      · exact absurd h hshort
      · obtain ⟨hshort', hbits⟩ := hsecond hvalue
        have hne : (splitHdr delta).2 ≠ [] := ne_nil_of_mem hbits.choose_spec.1
        rcases getDeltaHdrSize_cases hne with ⟨h, -⟩ | ⟨-, ⟨hlt, hread⟩ | ⟨hbig, hread⟩⟩
        · exact absurd h hshort'
        · rw [heq, hread]
          exact ⟨fun out => patchLoop_eq_ok_iff_isDelta hlong hsrc hvalue hbits hlt,
            patchLoop_ne_outOfBounds⟩
        rw [heq, hread]
        refine ⟨fun out => ⟨nofun, fun h => ?_⟩, nofun⟩
        obtain ⟨-, hheader, -⟩ := h.splitHdr_eq
        have := (hheader.splitHdr_eq []).2
        have := h.size_lt
        omega
      · refine ⟨fun out => ⟨fun h => ?_, fun h => absurd h.splitHdr_eq.1 hvalue⟩, fun h => ?_⟩
        all_goals rcases heq with heq | heq <;> simp [heq] at h
    · have heq : patchDelta src delta = .error .null :=
        if_pos (show delta.length < deltaSizeMin from Nat.not_le.mp hlong)
      rw [heq]
      exact ⟨fun out => ⟨nofun, fun h => absurd h.long hlong⟩, nofun⟩

/-- A delta that ends in its first header -/
theorem not_decidesDelta_unended : ¬ DecidesDelta [] [0x80, 0x80, 0x80, 0x00] := by
  rintro ⟨-, -, hbounds⟩
  exact hbounds rfl

theorem decidesDelta_copy : DecidesDelta [1, 2] [0x02, 0x02, 0x90, 0x02] :=
  (decidesDelta_iff (by decide)).mpr fun _ => by simp [LongHdr, splitHdr, hdrValue]

end GitCore.Delta
