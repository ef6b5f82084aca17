import GitCore.Ewah.Build
import GitCore.Lib.CInt

/-! # Reading compressed bitmaps

The iterator holds what is left of one segment, and the place of the next marker. Its counts are of
type `int`. An iterator whose segment is empty is taken to be at the end, so a bitmap must have no
empty marker before its last one. -/

namespace GitCore.Ewah

open Nat List
open Segment (encode)

/-- `struct rlw_iterator`; `literal_word_offset` is always zero and left out. -/
structure RlwIterator where
  buffer : List Eword
  pointer : Nat
  literalWordStart : Nat
  literalWords : Int
  runningLen : Int
  runningBit : Bool

/-- `rlwit_word_size` -/
def rlwitWordSize (it : RlwIterator) : Nat := toULong (it.runningLen + it.literalWords)

/-- `rlwit_literal_words` -/
def rlwitLiteralWords (it : RlwIterator) : Nat := it.pointer - toULong it.literalWords

/-- `next_word`, `none` at the end of the buffer -/
def nextWord (it : RlwIterator) : Option RlwIterator :=
  if it.pointer ≥ it.buffer.length then none
  else
    let word := it.buffer.getD it.pointer 0
    some { it with
      pointer := it.pointer + ((rlwGetLiteralWords word).toNat + 1)
      literalWords := toInt32 (rlwGetLiteralWords word).toNat
      runningLen := toInt32 (rlwGetRunningLen word).toNat
      runningBit := rlwGetRunBit word }

/-- `rlwit_init` -/
def rlwitInit (fromEwah : EwahBitmap) : RlwIterator :=
  let it : RlwIterator := ⟨fromEwah.buffer, 0, 0, 0, 0, false⟩
  let it := (nextWord it).getD it
  { it with literalWordStart := rlwitLiteralWords it }

/-- `rlwit_discard_first_words`, `none` without fuel -/
def rlwitDiscardFirstWords : Nat → RlwIterator → Nat → Option RlwIterator
  | _, it, 0 => some it
  | 0, _, _ + 1 => none
  | fuel + 1, it, x@(_ + 1) =>
    if toULong it.runningLen > x then some { it with runningLen := it.runningLen - x }
    else
      let x := x - toULong it.runningLen
      let discard := if x > toULong it.literalWords then toULong it.literalWords else x
      let it := { it with
        runningLen := 0
        literalWordStart := it.literalWordStart + discard
        literalWords := it.literalWords - discard }
      let x := x - discard
      if x > 0 ∨ rlwitWordSize it = 0 then
        match nextWord it with
        | none => some it
        | some it =>
          rlwitDiscardFirstWords fuel { it with literalWordStart := rlwitLiteralWords it } x
      else rlwitDiscardFirstWords fuel it x

theorem rlwitDiscardFirstWords_zero (fuel : Nat) (it : RlwIterator) :
    rlwitDiscardFirstWords fuel it 0 = some it := by
  cases fuel <;> rfl

/-- One round of `rlwit_discharge`. -/
def rlwitDischargeStep (fuel : Nat) (max : Nat) (negate : Bool) (it : RlwIterator) (out : EwahBitmap)
    (index : Nat) : Option (RlwIterator × EwahBitmap × Nat) :=
  let pl := if index + toULong it.runningLen > max then max - index else toULong it.runningLen
  let out := ewahAddEmptyWords out (it.runningBit ^^ negate) pl
  let index := index + pl
  let pd := if toULong it.literalWords + index > max then max - index else toULong it.literalWords
  let out := ewahAddDirtyWords out ((it.buffer.drop it.literalWordStart).take pd) negate
  (rlwitDiscardFirstWords fuel it (pd + pl)).map fun it => (it, out, index + pd)

/-- The loop of `rlwit_discharge`, `none` without fuel. -/
def rlwitDischargeLoop (fuel : Nat) (max : Nat) (negate : Bool) :
    Nat → RlwIterator → EwahBitmap → Nat → Option (RlwIterator × EwahBitmap × Nat)
  | 0, _, _, _ => none
  | rounds + 1, it, out, index =>
    if index < max ∧ rlwitWordSize it > 0 then
      (rlwitDischargeStep fuel max negate it out index).bind fun r =>
        rlwitDischargeLoop fuel max negate rounds r.1 r.2.1 r.2.2
    else some (it, out, index)

/-- `rlwit_discharge`: the iterator and the bitmap behind it, and the number of words. -/
def rlwitDischarge (fuel : Nat) (it : RlwIterator) (out : EwahBitmap) (max : Nat) (negate : Bool) :
    Option (RlwIterator × EwahBitmap × Nat) :=
  rlwitDischargeLoop fuel max negate fuel it out 0

/-! ## What is left of a bitmap -/

/-- **The state of an iterator**: a run and literal words of the current segment, and the segments
behind it. -/
structure At (it : RlwIterator) (b : Bool) (r : Nat) (literals : List Eword) (rest : List Segment) :
    Prop where
  runningLen_eq : it.runningLen = r
  runningBit_eq : it.runningBit = b
  literalWords_eq : it.literalWords = literals.length
  literals_eq : (it.buffer.drop it.literalWordStart).take literals.length = literals
  pointer_eq : it.buffer.drop it.pointer = rest.flatMap encode
  nonempty : ∀ s ∈ rest.dropLast, s.words ≠ []

/-- The words that are left. -/
def leftWords (b : Bool) (r : Nat) (literals : List Eword) (rest : List Segment) : List Eword :=
  List.replicate r (runWord b) ++ (literals ++ rest.flatMap Segment.words)

/-- **The words that an iterator has not passed yet**, fewer than an `int` can count. The current
segment is empty at the end only. -/
def Denotes (it : RlwIterator) (words : List Eword) : Prop :=
  words.length < 2 ^ 31 ∧ ∃ b r literals rest, At it b r literals rest ∧
    (r = 0 → literals = [] → rest = []) ∧ words = leftWords b r literals rest

variable {it : RlwIterator} {b : Bool} {r : Nat} {literals words : List Eword} {rest : List Segment}

theorem length_leftWords (b : Bool) (r : Nat) (literals : List Eword) (rest : List Segment) :
    (leftWords b r literals rest).length =
      r + (literals.length + (rest.flatMap Segment.words).length) := by
  rw [leftWords, length_append, length_append, length_replicate]

theorem toULong_natCast {n : Nat} (h : n < 2 ^ 64) : toULong n = n := by
  rw [toULong]
  omega

theorem At.toULong_runningLen (h : At it b r literals rest) (hr : r < 2 ^ 31) :
    toULong it.runningLen = r := by
  rw [h.runningLen_eq, toULong_natCast (by omega)]

theorem At.toULong_literalWords (h : At it b r literals rest) (hl : literals.length < 2 ^ 31) :
    toULong it.literalWords = literals.length := by
  rw [h.literalWords_eq, toULong_natCast (by omega)]

theorem At.wordSize_eq (h : At it b r literals rest) (hr : r + literals.length < 2 ^ 31) :
    rlwitWordSize it = r + literals.length := by
  rw [rlwitWordSize, h.runningLen_eq, h.literalWords_eq, ← cast_add, toULong_natCast (by omega)]

/-- **An iterator is at the end** if and only if nothing is left. -/
theorem Denotes.wordSize_eq_zero_iff (h : Denotes it words) :
    rlwitWordSize it = 0 ↔ words = [] := by
  obtain ⟨hlt, b, r, literals, rest, hat, hexhausted, rfl⟩ := h
  rw [length_leftWords] at hlt
  rw [hat.wordSize_eq (by omega), ← length_eq_zero_iff, length_leftWords]
  constructor
  · intro hzero
    have hliterals : literals = [] := length_eq_zero_iff.mp (by omega)
    grind
  · intro hzero
    omega

/-- There are not more segments than words in the buffer. -/
theorem At.length_rest (h : At it b r literals rest) : rest.length ≤ it.buffer.length := by
  have hencode : ∀ segments : List Segment,
      segments.length ≤ (segments.flatMap encode).length := by
    intro segments
    induction segments with
    | nil => exact le_rfl
    | cons s segments ih =>
      rw [flatMap_cons, length_append, length_cons, encode, length_cons]
      omega
  refine (hencode rest).trans ?_
  rw [← h.pointer_eq, length_drop]
  exact sub_le _ _

/-- **The next marker** begins a new segment. -/
theorem nextWord_at {s : Segment} (hpointer : it.buffer.drop it.pointer =
      (s :: rest).flatMap encode) (hsmall : s.words.length < 2 ^ 31)
    (hnonempty : ∀ t ∈ (s :: rest).dropLast, t.words ≠ []) :
    ∃ it', nextWord it = some it' ∧ it'.buffer = it.buffer ∧
      At { it' with literalWordStart := rlwitLiteralWords it' } (rlwGetRunBit s.marker)
        (runLen s.marker) s.literals rest ∧
      (runLen s.marker = 0 → s.literals = [] → rest = []) := by
  have hlt : it.pointer < it.buffer.length := by
    by_contra hge
    rw [drop_of_length_le (Nat.le_of_not_lt hge)] at hpointer
    cases hpointer
  have hword : it.buffer.getD it.pointer 0 = s.marker := by
    rw [getD_eq_getElem?_getD, ← add_zero it.pointer, ← getElem?_drop, hpointer]
    rfl
  have hdrop : it.buffer.drop (it.pointer + 1) = s.literals ++ rest.flatMap encode := by
    rw [← drop_drop, hpointer]
    rfl
  rw [s.length_words] at hsmall
  have hliteralInt : toInt32 (rlwGetLiteralWords s.marker).toNat = s.literals.length := by
    rw [s.length_literals, ← literalLen, toInt32_of_lt (by omega)]
  have hrunInt : toInt32 (rlwGetRunningLen s.marker).toNat = runLen s.marker := by
    rw [← runLen, toInt32_of_lt (by omega)]
  rw [nextWord, if_neg (not_le.mpr hlt), hword]
  refine ⟨_, rfl, rfl, ⟨hrunInt, rfl, hliteralInt, ?_, ?_, ?_⟩, ?_⟩
  · -- the literal words are behind the marker
    have hstart : it.pointer + ((rlwGetLiteralWords s.marker).toNat + 1) - s.literals.length =
        it.pointer + 1 := by
      rw [s.length_literals, literalLen]
      omega
    rw [rlwitLiteralWords]
    rw [hliteralInt, toULong_natCast (by rw [s.length_literals]; omega), hstart, hdrop, take_left]
  · dsimp only
    rw [add_comm _ 1, ← add_assoc, ← drop_drop, hdrop]
    exact drop_left' s.length_literals
  · intro t ht
    refine hnonempty t ?_
    cases rest with
    | nil => cases ht
    | cons u rest => exact mem_cons_of_mem _ ht
  · -- only the last segment can be empty
    intro hr hliterals
    cases rest with
    | nil => rfl
    | cons t rest =>
      refine absurd ?_ (hnonempty s (by simp [List.dropLast]))
      rw [Segment.words, hr, hliterals]
      rfl

/-- **An iterator on a bitmap** has all words before it. -/
theorem denotes_rlwitInit {self : EwahBitmap} (h : WellFormed self) (hlt : self.words.length < 2 ^ 31) :
    Denotes (rlwitInit self) self.words ∧ (rlwitInit self).buffer = self.buffer := by
  obtain ⟨front, last, h⟩ := h
  have hbuffer : self.buffer = (front ++ [last]).flatMap encode := by
    rw [h.buffer_eq, flatMap_append, flatMap_singleton]
  have hwords : self.words = (front ++ [last]).flatMap Segment.words := by
    rw [h.words_eq, flatMap_append, flatMap_singleton]
  have hnonempty : ∀ t ∈ (front ++ [last]).dropLast, t.words ≠ [] := by
    rw [dropLast_concat]
    exact h.nonempty
  obtain ⟨s, segments, hcons⟩ := exists_cons_of_ne_nil (concat_ne_nil last front)
  rw [hcons] at hbuffer hwords hnonempty
  have hsmall : s.words.length < 2 ^ 31 := by
    rw [hwords, flatMap_cons, length_append] at hlt
    omega
  obtain ⟨it', hnext, hsame, hat, hexhausted⟩ :=
    @nextWord_at ⟨self.buffer, 0, 0, 0, 0, false⟩ segments s hbuffer hsmall hnonempty
  rw [rlwitInit, hnext]
  refine ⟨⟨hlt, _, _, _, _, hat, hexhausted, ?_⟩, hsame⟩
  rw [hwords, flatMap_cons, Segment.words, leftWords, append_assoc]

/-! ## Passing words -/

/-- The rest of a run. -/
theorem drop_leftWords_of_le {x : Nat} (h : x ≤ r) :
    (leftWords b r literals rest).drop x = leftWords b (r - x) literals rest := by
  rw [leftWords, drop_append_of_le_length (by rwa [length_replicate]), drop_replicate, leftWords]

/-- The rest behind a run. -/
theorem drop_leftWords_of_ge {x : Nat} (h : r ≤ x) : (leftWords b r literals rest).drop x =
    (literals ++ rest.flatMap Segment.words).drop (x - r) := by
  conv_lhs => rw [leftWords, ← Nat.add_sub_cancel' h, ← drop_drop, drop_left' length_replicate]

/-- The run of a segment is passed, and some of its literal words. -/
theorem At.pass (h : At it b r literals rest) {discard : Nat} (hdiscard : discard ≤ literals.length) :
    At { it with
      runningLen := 0
      literalWordStart := it.literalWordStart + discard
      literalWords := it.literalWords - discard } b 0 (literals.drop discard) rest where
  runningLen_eq := rfl
  runningBit_eq := h.runningBit_eq
  literalWords_eq := by
    rw [h.literalWords_eq, length_drop, cast_sub hdiscard]
  literals_eq := by
    rw [← drop_drop, length_drop, ← drop_take, h.literals_eq]
  pointer_eq := h.pointer_eq
  nonempty := h.nonempty

/-- **Words are passed**, as many as there are. -/
theorem discard_at {fuel x : Nat} (h : At it b r literals rest)
    (hexhausted : r = 0 → literals = [] → rest = [])
    (hlt : (leftWords b r literals rest).length < 2 ^ 31)
    (hx : x ≤ (leftWords b r literals rest).length) (hfuel : rest.length < fuel) :
    ∃ it', rlwitDiscardFirstWords fuel it x = some it' ∧ it'.buffer = it.buffer ∧
      Denotes it' ((leftWords b r literals rest).drop x) := by
  induction fuel generalizing it b r literals rest x with
  | zero => exact absurd hfuel (not_lt_zero _)
  | succ fuel ih =>
    have hdrop : ((leftWords b r literals rest).drop x).length < 2 ^ 31 := by
      rw [length_drop]
      omega
    rw [length_leftWords] at hlt hx
    cases x with
    | zero => exact ⟨it, rfl, rfl, hdrop, b, r, literals, rest, h, hexhausted, rfl⟩
    | succ x =>
      rw [rlwitDiscardFirstWords, h.toULong_runningLen (by omega), h.toULong_literalWords (by omega)]
      by_cases hrun : r > x + 1
      · -- the run is longer
        rw [if_pos hrun]
        refine ⟨_, rfl, rfl, hdrop, b, r - (x + 1), literals, rest, ⟨?_, h.runningBit_eq,
          h.literalWords_eq, h.literals_eq, h.pointer_eq, h.nonempty⟩,
          fun hzero => absurd hzero (by omega), drop_leftWords_of_le hrun.le⟩
        dsimp only
        rw [h.runningLen_eq]
        omega
      · rw [if_neg hrun, drop_leftWords_of_ge (Nat.le_of_not_lt hrun)]
        rw [drop_leftWords_of_ge (Nat.le_of_not_lt hrun)] at hdrop
        dsimp only
        generalize hy : x + 1 - r = y at hdrop ⊢
        have hdiscard : (if y > literals.length then literals.length else y) = min y literals.length := by
          split_ifs <;> omega
        rw [hdiscard]
        have hpass := h.pass (min_le_right y literals.length)
        have hsize := hpass.wordSize_eq (by rw [length_drop]; omega)
        rw [length_drop, zero_add] at hsize
        rw [hsize]
        by_cases hnext : y - min y literals.length > 0 ∨ literals.length - min y literals.length = 0
        · -- all of the segment is passed
          rw [if_pos hnext]
          have hliterals : literals.length ≤ y := by omega
          rw [min_eq_right hliterals] at hpass ⊢
          rw [drop_append, drop_of_length_le hliterals, nil_append] at hdrop ⊢
          cases rest with
          | nil =>
            have hnone : nextWord { it with
                runningLen := 0
                literalWordStart := it.literalWordStart + literals.length
                literalWords := it.literalWords - literals.length } = none := by
              rw [nextWord, if_pos (drop_eq_nil_iff.mp h.pointer_eq)]
            rw [hnone]
            refine ⟨_, rfl, rfl, hdrop, b, 0, _, [], hpass, fun _ _ => rfl, ?_⟩
            simp [leftWords]
          | cons s rest =>
            rw [flatMap_cons, length_append] at hlt hx
            obtain ⟨it', hword, hsame, hat, hexhausted'⟩ :=
              nextWord_at hpass.pointer_eq (by omega) hpass.nonempty
            rw [hword]
            have hwords : leftWords (rlwGetRunBit s.marker) (runLen s.marker) s.literals rest =
                (s :: rest).flatMap Segment.words := by
              rw [flatMap_cons, Segment.words, leftWords, append_assoc]
            have hlength : (leftWords (rlwGetRunBit s.marker) (runLen s.marker) s.literals rest).length =
                s.words.length + (rest.flatMap Segment.words).length := by
              rw [hwords, flatMap_cons, length_append]
            obtain ⟨it'', hrest, hsame', hdenotes⟩ := @ih _ _ _ _ _ (y - literals.length) hat
              hexhausted' (by omega) (by omega) (lt_of_succ_lt_succ hfuel)
            exact ⟨it'', hrest, hsame'.trans hsame, hwords ▸ hdenotes⟩
        · rw [if_neg hnext]
          have hzero : y - min y literals.length = 0 := by omega
          have hmin : min y literals.length = y := by omega
          rw [hzero]
          rw [hmin] at hpass ⊢
          refine ⟨_, rlwitDiscardFirstWords_zero fuel _, rfl, hdrop, b, 0, _, rest, hpass, fun _ hnil => ?_, ?_⟩
          · grind
          · rw [drop_append_of_le_length (by omega)]
            rfl

theorem Denotes.discard {fuel x : Nat} (h : Denotes it words)
    (hx : x ≤ words.length) (hfuel : it.buffer.length < fuel) :
    ∃ it', rlwitDiscardFirstWords fuel it x = some it' ∧ it'.buffer = it.buffer ∧
      Denotes it' (words.drop x) := by
  obtain ⟨hlt, b, r, literals, rest, hat, hexhausted, rfl⟩ := h
  exact discard_at hat hexhausted hlt hx (hat.length_rest.trans_lt hfuel)

/-! ## Moving words to a bitmap -/

theorem negated_runWord (negate b : Bool) : negated negate (runWord b) = runWord (b ^^ negate) := by
  cases negate <;> cases b <;> rfl

/-- The words of one round. -/
theorem take_leftWords {m : Nat} :
    (leftWords b r literals rest).take (min literals.length (m - min r m) + min r m) =
      List.replicate (min r m) (runWord b) ++ literals.take (min literals.length (m - min r m)) := by
  rw [leftWords, take_append, take_replicate, length_replicate]
  grind

section Discharge

variable {out : EwahBitmap} {fuel max index : Nat} (negate : Bool) (h : Denotes it words)
  (hout : WellFormed out) (hfuel : it.buffer.length < fuel)

include h hout hfuel

/-- **A round** moves words of the current segment. -/
theorem dischargeStep_spec (hindex : index < max) (hwords : words ≠ []) :
    ∃ it' out' n, rlwitDischargeStep fuel max negate it out index = some (it', out', index + n) ∧
      0 < n ∧ n ≤ words.length ∧ n ≤ max - index ∧ it'.buffer = it.buffer ∧
      Denotes it' (words.drop n) ∧ Extends out out' ((words.take n).map (negated negate)) := by
  have hdenotes := h
  obtain ⟨hlt, b, r, literals, rest, hat, hexhausted, rfl⟩ := h
  have hlength := length_leftWords b r literals rest
  have hpos : 0 < r + literals.length := by
    by_contra hzero
    have hliterals : literals = [] := length_eq_zero_iff.mp (by omega)
    grind
  have hpl : (if index + r > max then max - index else r) = min r (max - index) := by
    split_ifs <;> omega
  have hpd : (if literals.length + (index + min r (max - index)) > max
      then max - (index + min r (max - index)) else literals.length) =
      min literals.length (max - index - min r (max - index)) := by
    split_ifs <;> omega
  have htake := @take_leftWords b r literals rest (max - index)
  rw [rlwitDischargeStep, hat.toULong_runningLen (by omega), hat.toULong_literalWords (by omega), hpl,
    hpd, hat.runningBit_eq]
  generalize hplEq : min r (max - index) = pl at *
  generalize hpdEq : min literals.length (max - index - pl) = pd at *
  have hliterals : (it.buffer.drop it.literalWordStart).take pd = literals.take pd := by
    conv_rhs => rw [← hat.literals_eq, take_take, min_eq_left (show pd ≤ _ by omega)]
  obtain ⟨it', hdiscard, hsame, hdenotes'⟩ := @Denotes.discard it _ fuel (pd + pl) hdenotes (by omega) hfuel
  obtain ⟨hformed, hrun⟩ := ewahAddEmptyWords_spec hout (b ^^ negate) pl
  obtain ⟨hformed', hdirty⟩ := ewahAddDirtyWords_spec hformed (literals.take pd) negate
  rw [hliterals, hdiscard, Option.map_some, add_assoc, add_comm pl]
  refine ⟨it', _, pd + pl, rfl, by omega, by omega, by omega, hsame, hdenotes', hformed', ?_⟩
  rw [hdirty, hrun, htake, map_append, map_replicate, negated_runWord, append_assoc]

/-- The loop moves as many words as it may. -/
theorem dischargeLoop_spec {rounds : Nat} (hrounds : words.length < rounds) (hindex : index ≤ max) :
    ∃ it' out', rlwitDischargeLoop fuel max negate rounds it out index =
        some (it', out', index + min (max - index) words.length) ∧ it'.buffer = it.buffer ∧
      Denotes it' (words.drop (max - index)) ∧
      Extends out out' ((words.take (max - index)).map (negated negate)) := by
  induction rounds generalizing it words out index with
  | zero => exact absurd hrounds (not_lt_zero _)
  | succ rounds ih =>
    rw [rlwitDischargeLoop]
    by_cases hmore : index < max ∧ rlwitWordSize it > 0
    · have hne : words ≠ [] := fun hnil =>
        hmore.2.ne' (h.wordSize_eq_zero_iff.mpr hnil)
      obtain ⟨it', out', n, hstep, hpos, hle, hmax, hsame, hdenotes, hextends⟩ :=
        dischargeStep_spec negate h hout hfuel hmore.1 hne
      rw [if_pos hmore, hstep, Option.bind_some]
      obtain ⟨it'', out'', hloop, hsame', hdenotes', hformed', hwords'⟩ :=
        @ih it' (words.drop n) out' (index + n) hdenotes hextends.1 (by rwa [hsame])
          (by rw [length_drop]; omega) (by omega)
      refine ⟨it'', out'', ?_, hsame'.trans hsame, ?_, hformed', ?_⟩
      · rw [hloop, length_drop]
        congr 3
        omega
      · rwa [drop_drop, show n + (max - (index + n)) = max - index by omega] at hdenotes'
      · rw [hwords', hextends.2, append_assoc, ← map_append, ← take_add,
          show n + (max - (index + n)) = max - index by omega]
    · rw [if_neg hmore]
      have hdone : max - index = 0 ∨ words = [] := by
        rcases lt_or_ge index max with hlt | hge
        · right
          refine h.wordSize_eq_zero_iff.mp (Nat.eq_zero_of_not_pos fun hpos => hmore ⟨hlt, hpos⟩)
        · exact .inl (by omega)
      refine ⟨it, out, ?_, rfl, ?_, hout, ?_⟩
      · rcases hdone with hzero | rfl
        · rw [hzero, Nat.zero_min, Nat.add_zero]
        · rw [length_nil, Nat.min_zero, Nat.add_zero]
      · grind
      grind

end Discharge

/-- **`rlwit_discharge`** moves words to a bitmap, as many as there are up to a limit. -/
theorem rlwitDischarge_spec {out : EwahBitmap} {fuel : Nat} (max : Nat)
    (negate : Bool) (h : Denotes it words) (hout : WellFormed out)
    (hfuel : it.buffer.length + words.length < fuel) :
    ∃ it' out', rlwitDischarge fuel it out max negate = some (it', out', min max words.length) ∧
      it'.buffer = it.buffer ∧ Denotes it' (words.drop max) ∧
      Extends out out' ((words.take max).map (negated negate)) := by
  obtain ⟨it', out', hloop, hrest⟩ := @dischargeLoop_spec it words out fuel max 0 negate h hout
    (by omega) fuel (by omega) (zero_le max)
  rw [zero_add] at hloop
  exact ⟨it', out', hloop, hrest⟩

end GitCore.Ewah
