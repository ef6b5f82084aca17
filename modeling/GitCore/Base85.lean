import Mathlib.Data.UInt

/-! # Base 85

Binary patches carry their bytes in base 85: a word of four bytes, the last one filled up with
zeros, becomes five digits. A decoder that is told the number of bytes takes back what was encoded,
and refuses the groups of digits that stand for no word. A text is the bytes before its NUL. -/

namespace GitCore.Base85

open List

/-! ## The two functions -/

/-- `en85` -/
def en85 : List UInt8 :=
  ("0123456789ABCDEFGHIJKLMNOPQRSTUVWXYZabcdefghijklmnopqrstuvwxyz!#$%&()*+-;<=>?@^_" ++
    "`\x7b|\x7d~").toList.map fun c => UInt8.ofNat c.toNat

/-- `de85`, as `prep_base85` fills it: a digit and one, or zero. -/
def de85 (ch : UInt8) : Nat := if ch ∈ en85 then en85.idxOf ch + 1 else 0

/-- What `decode_85` complains about. -/
inductive DecodeError
  /-- `invalid base85 alphabet` -/
  | alphabet (ch : UInt8)
  /-- `invalid base85 sequence` -/
  | sequence (group : List UInt8)

/-- A digit. -/
def readDigit (buffer : List UInt8) : Except DecodeError (Nat × List UInt8) :=
  if de85 (buffer.headD 0) = 0 then .error (.alphabet (buffer.headD 0))
  else .ok (de85 (buffer.headD 0) - 1, buffer.tail)

/-- The first digits of a group, in an accumulator of 32 bits. -/
def readDigits : Nat → Nat → List UInt8 → Except DecodeError (Nat × List UInt8)
  | 0, acc, buffer => .ok (acc, buffer)
  | cnt + 1, acc, buffer => do
    let (de, buffer) ← readDigit buffer
    readDigits cnt ((acc * 85 + de) % 2 ^ 32) buffer

/-- A group of five digits; the last one must not overflow the accumulator. -/
def readWord (buffer : List UInt8) : Except DecodeError (Nat × List UInt8) := do
  let (acc, rest) ← readDigits 4 0 buffer
  let (de, rest) ← readDigit rest
  if 0xffffffff / 85 < acc ∨ 0xffffffff - de < acc * 85 % 2 ^ 32 then
    .error (.sequence (buffer.take 5))
  else .ok ((acc * 85 % 2 ^ 32 + de) % 2 ^ 32, rest)

/-- The next byte of a word comes to its end. -/
def rotate (acc : Nat) : Nat := (acc <<< 8 % 2 ^ 32) ||| acc >>> 24

/-- The bytes of a word that are asked for. -/
def writeBytes : Nat → Nat → List UInt8
  | 0, _ => []
  | cnt + 1, acc => UInt8.ofNat (rotate acc) :: writeBytes cnt (rotate acc)

/-- `decode_85`, with the bytes it writes to `dst`. -/
def decode85 (buffer : List UInt8) (len : Nat) : Except DecodeError (List UInt8) :=
  if len = 0 then .ok []
  else do
    let (acc, buffer) ← readWord buffer
    let rest ← decode85 buffer (len - min len 4)
    .ok (writeBytes (min len 4) acc ++ rest)
termination_by len

@[simp] theorem decode85_zero (buffer : List UInt8) : decode85 buffer 0 = .ok [] := by
  rw [decode85, if_pos rfl]

/-- The bytes of a word, from the most significant one on, until there are no more. -/
def packBytes : Nat → Nat → List UInt8 → Nat × List UInt8
  | cnt + 1, acc, ch :: data => packBytes cnt (acc ||| ch.toNat <<< (8 * cnt)) data
  | _, acc, data => (acc, data)

/-- The digits of a word, from the least significant one on. -/
def writeDigits : Nat → Nat → List UInt8
  | 0, _ => []
  | cnt + 1, acc => writeDigits cnt (acc / 85) ++ [en85.getD (acc % 85) 0]

theorem packBytes_rest (data : List UInt8) : (packBytes 4 0 data).2 = data.drop 4 := by
  rcases data with _ | ⟨a, _ | ⟨b, _ | ⟨c, _ | ⟨d, data⟩⟩⟩⟩ <;> rfl

/-- `encode_85` -/
def encode85 (data : List UInt8) : List UInt8 :=
  if data = [] then []
  else writeDigits 5 (packBytes 4 0 data).1 ++ encode85 (packBytes 4 0 data).2
termination_by data.length
decreasing_by
  have hpos := length_pos_iff.mpr ‹data ≠ []›
  rw [packBytes_rest, length_drop]
  omega

/-! ## Words and digits -/

/-- The number that digits stand for. -/
def value (digits : List UInt8) : Nat := digits.foldl (fun acc ch => acc * 85 + en85.idxOf ch) 0

theorem en85_getD : ∀ i < 85, en85.getD i 0 ∈ en85 ∧ en85.idxOf (en85.getD i 0) = i := by
  decide +kernel

theorem readDigit_bind_eq_ok_iff {α : Type} {ch : UInt8} {rest : List UInt8}
    {f : Nat × List UInt8 → Except DecodeError α} {result : α} :
    (readDigit (ch :: rest) >>= f) = .ok result ↔
      ch ∈ en85 ∧ f (en85.idxOf ch, rest) = .ok result := by
  by_cases h : ch ∈ en85 <;> simp [readDigit, de85, h, bind, Except.bind]

/-- **A group is read exactly if it has digits of a number of 32 bits**, and as that number. -/
theorem readWord_eq_ok_iff {c₀ c₁ c₂ c₃ c₄ : UInt8} {rest rest' : List UInt8} {n : Nat} :
    readWord (c₀ :: c₁ :: c₂ :: c₃ :: c₄ :: rest) = .ok (n, rest') ↔
      ((∀ ch ∈ [c₀, c₁, c₂, c₃, c₄], ch ∈ en85) ∧ value [c₀, c₁, c₂, c₃, c₄] < 2 ^ 32) ∧
        value [c₀, c₁, c₂, c₃, c₄] = n ∧ rest = rest' := by
  simp only [readWord, readDigits, bind_assoc, readDigit_bind_eq_ok_iff, forall_mem_cons,
    and_assoc, and_congr_right_iff, value, foldl_cons, foldl_nil]
  intro h₀ h₁ h₂ h₃
  refine readDigit_bind_eq_ok_iff.trans (and_congr_right fun h₄ => ?_)
  have hlt : ∀ ch ∈ en85, en85.idxOf ch < 85 := fun ch h => idxOf_lt_length_of_mem h
  have hlt₀ := hlt _ h₀
  have hlt₁ := hlt _ h₁
  have hlt₂ := hlt _ h₂
  have hlt₃ := hlt _ h₃
  have hlt₄ := hlt _ h₄
  dsimp only
  split_ifs with hover
  · exact iff_of_false (by simp) (by omega)
  rw [Except.ok.injEq, Prod.mk.injEq]
  grind

/-- The digits of a word are read as the word. -/
theorem readWord_writeDigits {acc : Nat} (h : acc < 2 ^ 32) (rest : List UInt8) :
    readWord (writeDigits 5 acc ++ rest) = .ok (acc, rest) := by
  have hdigit : ∀ i, en85.getD (i % 85) 0 ∈ en85 ∧ en85.idxOf (en85.getD (i % 85) 0) = i % 85 :=
    fun i => en85_getD _ (Nat.mod_lt _ (by decide))
  refine readWord_eq_ok_iff.mpr ⟨⟨?_, ?_⟩, ?_, rfl⟩
  · simp only [forall_mem_cons, hdigit, true_and]
    exact forall_mem_nil _
  all_goals
    simp only [value, foldl_cons, foldl_nil, hdigit]
    omega

/-! ## Words and bytes -/

/-- The word of four bytes. -/
def word (a b c d : UInt8) : Nat :=
  a.toNat * 2 ^ 24 + b.toNat * 2 ^ 16 + c.toNat * 2 ^ 8 + d.toNat

section Word

variable (a b c d : UInt8)

theorem or_eq_word :
    0 ||| a.toNat <<< 24 ||| b.toNat <<< 16 ||| c.toNat <<< 8 ||| d.toNat <<< 0 = word a b c d := by
  have hb := b.toNat_lt
  have hc := c.toNat_lt
  have hd := d.toNat_lt
  simp only [Nat.zero_or, Nat.shiftLeft_eq, Nat.mul_comm _ (2 ^ _), Nat.pow_zero, Nat.mul_one]
  rw [← Nat.two_pow_add_eq_or_of_lt (i := 24) (by omega),
    show 2 ^ 24 * a.toNat + 2 ^ 16 * b.toNat = 2 ^ 16 * (2 ^ 8 * a.toNat + b.toNat) by omega,
    ← Nat.two_pow_add_eq_or_of_lt (i := 16) (by omega), show 2 ^ 16 * _ + 2 ^ 8 * c.toNat =
      2 ^ 8 * (2 ^ 16 * a.toNat + 2 ^ 8 * b.toNat + c.toNat) by omega,
    ← Nat.two_pow_add_eq_or_of_lt hd, word]
  omega

theorem rotate_word : rotate (word a b c d) = word b c d a := by
  have ha := a.toNat_lt
  have hb := b.toNat_lt
  have hc := c.toNat_lt
  have hd := d.toNat_lt
  rw [rotate, word, Nat.shiftLeft_eq, Nat.shiftRight_eq_div_pow,
    show _ % 2 ^ 32 = 2 ^ 8 * (b.toNat * 2 ^ 16 + c.toNat * 2 ^ 8 + d.toNat) by omega,
    show _ / 2 ^ 24 = a.toNat by omega, ← Nat.two_pow_add_eq_or_of_lt ha, word]
  omega

theorem ofNat_word : UInt8.ofNat (word a b c d) = d := by
  have hd := d.toNat_lt
  rw [← UInt8.toNat_inj, UInt8.toNat_ofNat', word]
  omega

theorem writeBytes_word {cnt : Nat} (h : cnt ≤ 4) :
    writeBytes cnt (word a b c d) = [a, b, c, d].take cnt := by
  rcases cnt with _ | _ | _ | _ | _ | cnt
  on_goal 6 => omega
  all_goals simp [writeBytes, rotate_word, ofNat_word]

end Word

/-- **The bytes that are packed are those that are written.** -/
theorem packBytes_spec {data : List UInt8} (h : data ≠ []) : (packBytes 4 0 data).1 < 2 ^ 32 ∧
    writeBytes (min data.length 4) (packBytes 4 0 data).1 = data.take 4 := by
  obtain ⟨a, b, c, d, hword, htake⟩ : ∃ a b c d, (packBytes 4 0 data).1 = word a b c d ∧
      [a, b, c, d].take (min data.length 4) = data.take 4 := by
    rcases data with _ | ⟨a, _ | ⟨b, _ | ⟨c, _ | ⟨d, data⟩⟩⟩⟩
    · exact absurd rfl h
    · exact ⟨a, 0, 0, 0, by simpa [packBytes] using or_eq_word a 0 0 0, rfl⟩
    · exact ⟨a, b, 0, 0, by simpa [packBytes] using or_eq_word a b 0 0, rfl⟩
    · exact ⟨a, b, c, 0, by simpa [packBytes] using or_eq_word a b c 0, rfl⟩
    · exact ⟨a, b, c, d, by simpa [packBytes] using or_eq_word a b c d, by simp⟩
  rw [hword, writeBytes_word _ _ _ _ (min_le_right _ _)]
  refine ⟨?_, htake⟩
  have ha := a.toNat_lt
  have hb := b.toNat_lt
  have hc := c.toNat_lt
  have hd := d.toNat_lt
  rw [word]
  omega

/-- **Base 85 is taken back**, and a group of five characters is accepted exactly if they are
digits of a number of 32 bits. -/
theorem base85_roundTrip (data : List UInt8) (c₀ c₁ c₂ c₃ c₄ : UInt8) :
    decode85 (encode85 data) data.length = .ok data ∧
      ((∃ word, decode85 [c₀, c₁, c₂, c₃, c₄] 4 = .ok word) ↔
        (∀ ch ∈ [c₀, c₁, c₂, c₃, c₄], ch ∈ en85) ∧ value [c₀, c₁, c₂, c₃, c₄] < 2 ^ 32) := by
  constructor
  · fun_induction encode85 data with
    | case1 => exact decode85_zero _
    | case2 data hne ih =>
      obtain ⟨hlt, hbytes⟩ := packBytes_spec hne
      rw [packBytes_rest, length_drop] at ih
      rw [decode85, if_neg (length_pos_iff.mpr hne).ne', readWord_writeDigits hlt]
      simp only [bind, Except.bind]
      rw [show data.length - min data.length 4 = data.length - 4 by omega, packBytes_rest, ih]
      dsimp only
      rw [hbytes, take_append_drop]
  · rw [decode85, if_neg (by decide)]
    simp only [bind, Except.bind]
    cases hread : readWord [c₀, c₁, c₂, c₃, c₄] with
    | error e =>
      refine iff_of_false (by simp) fun h => ?_
      cases hread.symm.trans (readWord_eq_ok_iff.mpr ⟨h, rfl, rfl⟩)
    | ok result => exact iff_of_true ⟨_, by simp; rfl⟩ (readWord_eq_ok_iff.mp hread).1

end GitCore.Base85
