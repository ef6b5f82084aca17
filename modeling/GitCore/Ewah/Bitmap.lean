import GitCore.Ewah.Rlw

/-! # Compressed bitmaps

A bitmap is built by adding words at its end: runs of equal words, and literal words. The counts of
words that the functions of the source return are the growth of the buffer and left out here, like
`alloc_size`. -/

namespace GitCore.Ewah

open List

/-- `BITS_IN_EWORD` -/
def bitsInEword : Nat := 64

/-- `struct ewah_bitmap`: the words of `buffer` up to `buffer_size`, and the place of the marker
that `rlw` points to. -/
structure EwahBitmap where
  buffer : List Eword
  bitSize : Nat
  rlw : Nat
deriving DecidableEq

/-- `*self->rlw` -/
def EwahBitmap.marker (self : EwahBitmap) : Eword := self.buffer.getD self.rlw 0

/-- An assignment to `*self->rlw`. -/
@[simps bitSize] def EwahBitmap.setMarker (self : EwahBitmap) (word : Eword) : EwahBitmap :=
  { self with buffer := self.buffer.set self.rlw word }

/-- `ewah_new`, and a bitmap after `ewah_clear` -/
def ewahNew : EwahBitmap := ⟨[0], 0, 0⟩

/-- `buffer_push` -/
@[simps bitSize] def bufferPush (self : EwahBitmap) (value : Eword) : EwahBitmap :=
  { self with buffer := self.buffer ++ [value] }

/-- `buffer_push_rlw` -/
@[simps bitSize] def bufferPushRlw (self : EwahBitmap) (value : Eword) : EwahBitmap :=
  let self := bufferPush self value
  { self with rlw := self.buffer.length - 1 }

/-! ## Runs -/

/-- A new marker with a run bit. -/
def pushMarker (self : EwahBitmap) (v : Bool) : EwahBitmap :=
  let self := bufferPushRlw self 0
  if v then self.setMarker (rlwSetRunBit self.marker v) else self

/-- The first step of `add_empty_words`: a marker that a run of the bit can be added to. -/
def selectRun (self : EwahBitmap) (v : Bool) : EwahBitmap :=
  if rlwGetRunBit self.marker ≠ v ∧ rlwSize self.marker = 0 then
    self.setMarker (rlwSetRunBit self.marker v)
  else if rlwGetLiteralWords self.marker ≠ 0 ∨ rlwGetRunBit self.marker ≠ v then pushMarker self v
  else self

/-- A new marker with a run. -/
def pushRun (self : EwahBitmap) (v : Bool) (number : Nat) : EwahBitmap :=
  let self := pushMarker self v
  self.setMarker (rlwSetRunningLen self.marker (BitVec.ofNat 64 number))

/-- The loop of `add_empty_words` over the longest runs, and the number of words that are left. -/
def pushFullRuns : Nat → EwahBitmap → Bool → Nat → EwahBitmap × Nat
  | 0, self, _, number => (self, number)
  | fuel + 1, self, v, number =>
    if number ≥ rlwLargestRunningCount.toNat then
      pushFullRuns fuel (pushRun self v rlwLargestRunningCount.toNat) v
        (number - rlwLargestRunningCount.toNat)
    else (self, number)

/-- `add_empty_words` -/
def addEmptyWords (self : EwahBitmap) (v : Bool) (number : Nat) : EwahBitmap :=
  let self := selectRun self v
  let runlen := rlwGetRunningLen self.marker
  let canAdd := min number (rlwLargestRunningCount - runlen).toNat
  let self := self.setMarker (rlwSetRunningLen self.marker (runlen + BitVec.ofNat 64 canAdd))
  let number := number - canAdd
  let rest := pushFullRuns number self v number
  if rest.2 > 0 then pushRun rest.1 v rest.2 else rest.1

/-- `ewah_add_empty_words` -/
def ewahAddEmptyWords (self : EwahBitmap) (v : Bool) (number : Nat) : EwahBitmap :=
  if number = 0 then self
  else addEmptyWords { self with bitSize := self.bitSize + number * bitsInEword } v number

/-- The first step of `add_empty_word`: an empty marker gets the bit. -/
def selectBit (self : EwahBitmap) (v : Bool) : EwahBitmap :=
  if rlwGetLiteralWords self.marker = 0 ∧ rlwGetRunningLen self.marker = 0 then
    self.setMarker (rlwSetRunBit self.marker v)
  else self

/-- `add_empty_word` -/
def addEmptyWord (self : EwahBitmap) (v : Bool) : EwahBitmap :=
  let noLiteral := rlwGetLiteralWords self.marker = 0
  let runLen := rlwGetRunningLen self.marker
  let self := selectBit self v
  if noLiteral ∧ rlwGetRunBit self.marker = v ∧ runLen < rlwLargestRunningCount then
    self.setMarker (rlwSetRunningLen self.marker (runLen + 1))
  else
    let self := bufferPushRlw self 0
    let self := self.setMarker (rlwSetRunBit self.marker v)
    self.setMarker (rlwSetRunningLen self.marker 1)

/-! ## Literal words -/

/-- `add_literal` -/
def addLiteral (self : EwahBitmap) (newData : Eword) : EwahBitmap :=
  let currentNum := rlwGetLiteralWords self.marker
  if currentNum ≥ rlwLargestLiteralCount then
    let self := bufferPushRlw self 0
    bufferPush (self.setMarker (rlwSetLiteralWords self.marker 1)) newData
  else bufferPush (self.setMarker (rlwSetLiteralWords self.marker (currentNum + 1))) newData

/-- A literal word, turned around if `negate` is set. -/
def negated (negate : Bool) (word : Eword) : Eword := if negate then ~~~word else word

/-- The loop of `ewah_add_dirty_words`. -/
def addDirtyWordsLoop (negate : Bool) : Nat → EwahBitmap → List Eword → EwahBitmap
  | 0, self, _ => self
  | fuel + 1, self, buffer =>
    let literals := rlwGetLiteralWords self.marker
    let canAdd := min buffer.length (rlwLargestLiteralCount - literals).toNat
    let self := self.setMarker (rlwSetLiteralWords self.marker (literals + BitVec.ofNat 64 canAdd))
    let self := { self with
      buffer := self.buffer ++ (buffer.take canAdd).map (negated negate)
      bitSize := self.bitSize + canAdd * bitsInEword }
    if buffer.length - canAdd = 0 then self
    else addDirtyWordsLoop negate fuel (bufferPushRlw self 0) (buffer.drop canAdd)

/-- `ewah_add_dirty_words`; the loop adds a word in its second round at the latest. -/
def ewahAddDirtyWords (self : EwahBitmap) (buffer : List Eword) (negate : Bool) : EwahBitmap :=
  addDirtyWordsLoop negate (buffer.length + 2) self buffer

/-- `ewah_add` -/
def ewahAdd (self : EwahBitmap) (word : Eword) : EwahBitmap :=
  let self := { self with bitSize := self.bitSize + bitsInEword }
  if word = 0 then addEmptyWord self false
  else if word = ~~~0 then addEmptyWord self true
  else addLiteral self word

/-- `ewah_set` for a bit that is not before `bit_size` -/
def ewahSet (self : EwahBitmap) (i : Nat) : EwahBitmap :=
  let dist := (i + 1 + 63) / bitsInEword - (self.bitSize + 63) / bitsInEword
  let self := { self with bitSize := i + 1 }
  let bit : Eword := 1 <<< (i % bitsInEword)
  if dist > 0 then
    addLiteral (if dist > 1 then addEmptyWords self false (dist - 1) else self) bit
  else if rlwGetLiteralWords self.marker = 0 then
    addLiteral (self.setMarker (rlwSetRunningLen self.marker (rlwGetRunningLen self.marker - 1))) bit
  else
    let last := self.buffer.getLastD 0 ||| bit
    if last = ~~~0 then
      -- a stream of ones was completed
      let self := { self with buffer := self.buffer.dropLast }
      addEmptyWord (self.setMarker
        (rlwSetLiteralWords self.marker (rlwGetLiteralWords self.marker - 1))) true
    else { self with buffer := self.buffer.dropLast ++ [last] }

/-! ## The words of a bitmap -/

/-- A word of a run. -/
def runWord (b : Bool) : Eword := if b then ~~~0 else 0

/-- The loop of `ewah_each_bit`, word by word. -/
def wordsLoop : Nat → List Eword → List Eword
  | 0, _ => []
  | _ + 1, [] => []
  | fuel + 1, word :: rest =>
    List.replicate (runLen word) (runWord (rlwGetRunBit word)) ++
      (rest.take (literalLen word) ++ wordsLoop fuel (rest.drop (literalLen word)))

/-- **The words that a bitmap denotes.** -/
def EwahBitmap.words (self : EwahBitmap) : List Eword := wordsLoop self.buffer.length self.buffer

/-- A marker with its literal words. -/
structure Segment where
  marker : Eword
  literals : List Eword
  length_literals : literals.length = literalLen marker

namespace Segment

/-- The words of the buffer. -/
def encode (s : Segment) : List Eword := s.marker :: s.literals

/-- The words that are denoted. -/
def words (s : Segment) : List Eword :=
  List.replicate (runLen s.marker) (runWord (rlwGetRunBit s.marker)) ++ s.literals

/-- A segment has its run and its literals. -/
theorem length_words (s : Segment) : s.words.length = runLen s.marker + literalLen s.marker := by
  rw [words, length_append, length_replicate, s.length_literals]

/-- A segment without words has an empty marker. -/
theorem words_ne_nil_iff (s : Segment) : s.words ≠ [] ↔ rlwSize s.marker ≠ 0 := by
  rw [← length_pos_iff_ne_nil, length_words, ← toNat_rlwSize, Nat.pos_iff_ne_zero]
  exact not_congr ⟨fun h => BitVec.eq_of_toNat_eq h, fun h => congrArg BitVec.toNat h⟩

end Segment

/-- Reading segment after segment. -/
theorem wordsLoop_flatMap {fuel : Nat} (segments : List Segment)
    (hfuel : (segments.flatMap Segment.encode).length ≤ fuel) :
    wordsLoop fuel (segments.flatMap Segment.encode) = segments.flatMap Segment.words := by
  induction segments generalizing fuel with
  | nil => cases fuel <;> rfl
  | cons s segments ih =>
    cases fuel with
    | zero => exact absurd hfuel (by simp [Segment.encode])
    | succ fuel =>
      rw [flatMap_cons, flatMap_cons, Segment.encode, cons_append, wordsLoop,
        take_left' s.length_literals, drop_left' s.length_literals, ih, Segment.words, append_assoc]
      simp only [flatMap_cons, length_append, Segment.encode, length_cons] at hfuel
      omega

/-- **The segments of a bitmap**: `rlw` is the marker of the last one, and no marker before it is
empty. -/
structure Consists (b : EwahBitmap) (front : List Segment) (last : Segment) : Prop where
  buffer_eq : b.buffer = front.flatMap Segment.encode ++ last.encode
  rlw_eq : b.rlw = (front.flatMap Segment.encode).length
  nonempty : ∀ s ∈ front, s.words ≠ []

/-- **A bitmap that is well-formed.** -/
def WellFormed (self : EwahBitmap) : Prop := ∃ front last, Consists self front last

variable {self : EwahBitmap} {front : List Segment} {last : Segment} {words : List Eword}

/-- The words are those of the segments. -/
theorem Consists.words_eq (h : Consists self front last) :
    self.words = front.flatMap Segment.words ++ last.words := by
  have hbuffer : self.buffer = (front ++ [last]).flatMap Segment.encode := by
    rw [h.buffer_eq, flatMap_append, flatMap_singleton]
  rw [EwahBitmap.words, hbuffer, wordsLoop_flatMap _ le_rfl, flatMap_append, flatMap_singleton]

theorem words_withBitSize (self : EwahBitmap) (n : Nat) :
    ({ self with bitSize := n } : EwahBitmap).words = self.words := rfl

/-- The current marker is the one of the last segment. -/
theorem Consists.marker_eq (h : Consists self front last) : self.marker = last.marker := by
  rw [EwahBitmap.marker, h.buffer_eq, h.rlw_eq, getD_eq_getElem?_getD,
    getElem?_append_right le_rfl, Nat.sub_self]
  rfl

/-- The marker without literal words. -/
def Segment.empty : Segment := ⟨0, [], rfl⟩

theorem Segment.words_empty : Segment.empty.words = [] := rfl

section

variable (h : Consists self front last) {word : Eword}

include h

/-- The segments do not depend on `bit_size`. -/
theorem Consists.withBitSize (n : Nat) : Consists { self with bitSize := n } front last :=
  ⟨h.buffer_eq, h.rlw_eq, h.nonempty⟩

/-- An assignment to the marker that keeps the number of literal words. -/
theorem Consists.setMarker (hword : last.literals.length = literalLen word) :
    Consists (self.setMarker word) front ⟨word, last.literals, hword⟩ where
  buffer_eq := by
    rw [EwahBitmap.setMarker, h.buffer_eq, h.rlw_eq, set_append_right _ _ le_rfl, Nat.sub_self]
    rfl
  rlw_eq := h.rlw_eq
  nonempty := h.nonempty

/-- A new marker behind a segment that is not empty. -/
theorem Consists.pushRlw (hlast : last.words ≠ []) :
    Consists (bufferPushRlw self 0) (front ++ [last]) Segment.empty where
  buffer_eq := by
    rw [bufferPushRlw, bufferPush, h.buffer_eq, flatMap_append, flatMap_singleton]
    rfl
  rlw_eq := by
    rw [bufferPushRlw, bufferPush, h.buffer_eq, flatMap_append, flatMap_singleton]
    simp
  nonempty := forall_mem_append.mpr ⟨h.nonempty, forall_mem_singleton.mpr hlast⟩

/-- Literal words behind the last marker. -/
theorem Consists.pushLiterals {literals : List Eword}
    (hword : (last.literals ++ literals).length = literalLen word) (n : Nat) :
    Consists ⟨(self.setMarker word).buffer ++ literals, n, (self.setMarker word).rlw⟩ front
      ⟨word, last.literals ++ literals, hword⟩ where
  buffer_eq := by
    rw [EwahBitmap.setMarker, h.buffer_eq, h.rlw_eq, set_append_right _ _ le_rfl, Nat.sub_self,
      append_assoc]
    rfl
  rlw_eq := h.rlw_eq
  nonempty := h.nonempty

end

/-- **Words were added** at the end of a bitmap. -/
def Extends (self self' : EwahBitmap) (added : List Eword) : Prop :=
  WellFormed self' ∧ self'.words = self.words ++ added

/-- **The last marker is empty only in an empty bitmap.** -/
def Tight (self : EwahBitmap) : Prop :=
  ∃ front last, Consists self front last ∧ (last.words = [] → front = [])

/-- **The bitmap denotes these words**, and the last marker is not empty. -/
def Closed (self : EwahBitmap) (words : List Eword) : Prop :=
  ∃ front last, Consists self front last ∧ self.words = words ∧ last.words ≠ []

/-- The words of a closed bitmap. -/
theorem Closed.words_eq (h : Closed self words) : self.words = words := by
  obtain ⟨-, -, -, hwords, -⟩ := h
  exact hwords

/-- A closed bitmap is tight. -/
theorem Closed.tight (h : Closed self words) : Tight self := by
  obtain ⟨front, last, hconsists, -, hne⟩ := h
  exact ⟨front, last, hconsists, fun hnil => absurd hnil hne⟩

/-- A tight bitmap is well formed. -/
theorem Tight.wellFormed (h : Tight self) : WellFormed self := by
  obtain ⟨front, last, hconsists, -⟩ := h
  exact ⟨front, last, hconsists⟩

/-- A bitmap that is closed with more words extends the other one. -/
theorem Closed.extends {self' : EwahBitmap} {added : List Eword}
    (h : Closed self' (self.words ++ added)) : Extends self self' added :=
  ⟨h.tight.wellFormed, h.words_eq⟩

/-- The number of bits plays no role for tightness. -/
theorem Tight.withBitSize (h : Tight self) (n : Nat) : Tight { self with bitSize := n } := by
  obtain ⟨front, last, hconsists, hempty⟩ := h
  exact ⟨front, last, hconsists.withBitSize n, hempty⟩

/-- A new bitmap is tight. -/
theorem tight_ewahNew : Tight ewahNew :=
  ⟨[], Segment.empty, ⟨rfl, rfl, nofun⟩, fun _ => rfl⟩

/-- A new bitmap is well formed. -/
theorem wellFormed_ewahNew : WellFormed ewahNew :=
  ⟨[], Segment.empty, rfl, rfl, nofun⟩

theorem words_ewahNew : ewahNew.words = [] := rfl

end GitCore.Ewah
