import GitCore.Ewah.Bitmap

/-! # Building compressed bitmaps

Each function that adds words to a bitmap adds just these words, and leaves no empty marker before
the last one. -/

namespace GitCore.Ewah

open Nat List

variable {self : EwahBitmap} {front : List Segment} {last : Segment}

/-! ## The number of bits -/

section BitSize

variable (self) (v : Bool)

/-- Adding words leaves the number of bits to the callers. -/
@[simp] theorem bitSize_pushMarker : (pushMarker self v).bitSize = self.bitSize := by
  rw [pushMarker]
  split_ifs <;> rfl

@[simp] theorem bitSize_pushRun (number : Nat) :
    (pushRun self v number).bitSize = self.bitSize := by
  simp [pushRun]

@[simp] theorem bitSize_pushFullRuns (fuel number : Nat) :
    (pushFullRuns fuel self v number).1.bitSize = self.bitSize := by
  induction fuel generalizing self number with
  | zero => rfl
  | succ fuel ih =>
    rw [pushFullRuns]
    split_ifs
    · rw [ih, bitSize_pushRun]
    · rfl

@[simp] theorem bitSize_selectRun : (selectRun self v).bitSize = self.bitSize := by
  rw [selectRun]
  split_ifs
  · rfl
  · exact bitSize_pushMarker self v
  · rfl

/-- `add_empty_words` does not count bits. -/
@[simp] theorem bitSize_addEmptyWords (number : Nat) :
    (addEmptyWords self v number).bitSize = self.bitSize := by
  rw [addEmptyWords, apply_ite EwahBitmap.bitSize, bitSize_pushRun, bitSize_pushFullRuns,
    EwahBitmap.setMarker_bitSize, bitSize_selectRun, ite_self]

/-- `add_empty_word` does not count bits. -/
@[simp] theorem bitSize_addEmptyWord : (addEmptyWord self v).bitSize = self.bitSize := by
  have hselect : (selectBit self v).bitSize = self.bitSize := by
    rw [selectBit]
    split_ifs <;> simp
  rw [addEmptyWord]
  split_ifs <;> simp [hselect]

/-- `add_literal` does not count bits. -/
@[simp] theorem bitSize_addLiteral (word : Eword) :
    (addLiteral self word).bitSize = self.bitSize := by
  rw [addLiteral]
  split_ifs <;> simp

end BitSize

/-! ## Runs -/

theorem toNat_largestRunningCount : rlwLargestRunningCount.toNat = 2 ^ 32 - 1 := rfl

theorem toNat_largestLiteralCount : rlwLargestLiteralCount.toNat = 2 ^ 31 - 1 := rfl

/-- The room that a marker has for its run. -/
theorem toNat_sub_runningLen (word : Eword) :
    (rlwLargestRunningCount - rlwGetRunningLen word).toNat = 2 ^ 32 - 1 - runLen word := by
  have hlt := runLen_lt word
  have hle : rlwGetRunningLen word ≤ rlwLargestRunningCount := by
    exact le_sub_one_of_lt hlt
  rw [BitVec.toNat_sub_of_le hle, toNat_largestRunningCount, runLen]

/-- The room that a marker has for literals. -/
theorem toNat_sub_literalWords (word : Eword) :
    (rlwLargestLiteralCount - rlwGetLiteralWords word).toNat = 2 ^ 31 - 1 - literalLen word := by
  have hlt := literalLen_lt word
  have hle : rlwGetLiteralWords word ≤ rlwLargestLiteralCount := by
    exact le_sub_one_of_lt hlt
  rw [BitVec.toNat_sub_of_le hle, toNat_largestLiteralCount, literalLen]

variable {n : Nat}

/-- A count that is added to another one. -/
theorem toNat_add_ofNat (count : Eword) (h : count.toNat + n < 2 ^ 64) :
    (count + BitVec.ofNat 64 n).toNat = count.toNat + n := by
  rw [BitVec.toNat_add, BitVec.toNat_ofNat]
  omega

/-- **A segment that is just a run.** -/
structure Segment.IsRun (s : Segment) (v : Bool) (n : Nat) : Prop where
  literals : s.literals = []
  bit : rlwGetRunBit s.marker = v
  len : runLen s.marker = n

variable {s : Segment} {v : Bool} {number fuel : Nat}

/-- The words of a run are equal. -/
theorem Segment.IsRun.words_eq (h : s.IsRun v n) : s.words = List.replicate n (runWord v) := by
  rw [Segment.words, h.literals, h.bit, h.len, append_nil]

/-- A run that is not empty has words. -/
theorem Segment.IsRun.words_ne_nil (h : s.IsRun v n) (hn : n ≠ 0) : s.words ≠ [] := by
  rwa [h.words_eq, ne_eq, replicate_eq_nil_iff]

/-- A marker is empty if its segment is. -/
theorem Segment.isRun_of_words_eq_nil (h : s.words = []) :
    s.IsRun (rlwGetRunBit s.marker) 0 where
  literals := (append_eq_nil_iff.mp h).2
  bit := rfl
  len := by
    have := congrArg List.length h
    rw [s.length_words, length_nil] at this
    omega

/-- The marker counts the literals. -/
theorem Segment.literals_eq_nil_iff : s.literals = [] ↔ rlwGetLiteralWords s.marker = 0 := by
  rw [← length_eq_zero_iff, s.length_literals]
  exact ⟨fun h => BitVec.eq_of_toNat_eq h, fun h => congrArg BitVec.toNat h⟩

/-- A segment with literals has words. -/
theorem Segment.words_ne_nil_of_literals (h : rlwGetLiteralWords s.marker ≠ 0) : s.words ≠ [] :=
  fun hnil => h (Segment.literals_eq_nil_iff.mp (Segment.isRun_of_words_eq_nil hnil).literals)

/-- A new marker is an empty run. -/
theorem Segment.isRun_empty : Segment.empty.IsRun false 0 := ⟨rfl, zero_marker.1, zero_marker.2.1⟩

section

variable (h : Consists self front last)
include h

/-- The bit of a marker is set. -/
theorem Consists.setRunBit {b : Bool} (hrun : last.IsRun b n) (v : Bool) :
    ∃ last', Consists (self.setMarker (rlwSetRunBit self.marker v)) front last' ∧ last'.IsRun v n := by
  have hliterals : last.literals.length = literalLen (rlwSetRunBit self.marker v) := by
    rw [literalLen_setRunBit, h.marker_eq, last.length_literals]
  refine ⟨_, h.setMarker hliterals, hrun.literals, rlwGetRunBit_setRunBit _ _, ?_⟩
  rw [runLen_setRunBit, h.marker_eq, hrun.len]

/-- The length of a run is set. -/
theorem Consists.setRunningLen (hrun : last.IsRun v n) {l : Eword} (hl : l.toNat < 2 ^ 32) :
    ∃ last', Consists (self.setMarker (rlwSetRunningLen self.marker l)) front last' ∧
      last'.IsRun v l.toNat := by
  have hliterals : last.literals.length = literalLen (rlwSetRunningLen self.marker l) := by
    rw [literalLen_setRunningLen, h.marker_eq, last.length_literals]
  refine ⟨_, h.setMarker hliterals, hrun.literals, ?_, runLen_setRunningLen _ hl⟩
  rw [rlwGetRunBit_setRunningLen, h.marker_eq, hrun.bit]

/-- A new marker starts an empty run. -/
theorem Consists.pushMarker (hlast : last.words ≠ []) (v : Bool) :
    ∃ last', Consists (pushMarker self v) (front ++ [last]) last' ∧ last'.IsRun v 0 := by
  have hpush := h.pushRlw hlast
  cases v with
  | false => exact ⟨_, hpush, Segment.isRun_empty⟩
  | true => exact hpush.setRunBit Segment.isRun_empty true

/-- A new run behind a segment that is not empty. -/
theorem Consists.pushRun (hlast : last.words ≠ []) (v : Bool) (hn : n < 2 ^ 32) :
    ∃ last', Consists (pushRun self v n) (front ++ [last]) last' ∧ last'.IsRun v n := by
  obtain ⟨marked, hmarked, hrun⟩ := h.pushMarker hlast v
  have hnat : (BitVec.ofNat 64 n).toNat = n := by
    rw [BitVec.toNat_ofNat]
    omega
  obtain ⟨last', hlast', hrun'⟩ := hmarked.setRunningLen hrun (by rwa [hnat])
  exact ⟨last', hlast', hnat ▸ hrun'⟩

/-- **The marker for a run** of a bit is the last one or a new one, and no word is added. -/
theorem Consists.selectRun (v : Bool) :
    ∃ front' last' n, Consists (selectRun self v) front' last' ∧ last'.IsRun v n ∧
      front'.flatMap Segment.words ++ last'.words = front.flatMap Segment.words ++ last.words := by
  rw [Ewah.selectRun, h.marker_eq]
  split_ifs with hempty hnew
  · -- an empty marker gets the bit
    have hwords : last.words = [] := by
      by_contra hne
      exact last.words_ne_nil_iff.mp hne hempty.2
    obtain ⟨last', hlast', hrun⟩ := h.setRunBit (Segment.isRun_of_words_eq_nil hwords) v
    rw [h.marker_eq] at hlast'
    exact ⟨front, last', 0, hlast', hrun, by rw [hrun.words_eq, hwords]; rfl⟩
  · -- a new marker follows a segment that is not empty
    have hlast : last.words ≠ [] := by
      rcases hnew with hliteral | hbit
      · exact Segment.words_ne_nil_of_literals hliteral
      · rw [last.words_ne_nil_iff]
        exact fun hzero => hempty ⟨hbit, hzero⟩
    obtain ⟨last', hlast', hrun⟩ := h.pushMarker hlast v
    refine ⟨front ++ [last], last', 0, hlast', hrun, ?_⟩
    rw [hrun.words_eq, flatMap_append, flatMap_singleton]
    exact append_nil _
  · rw [not_or, not_not, not_not] at hnew
    exact ⟨front, last, _, h, ⟨Segment.literals_eq_nil_iff.mpr hnew.1, hnew.2, rfl⟩, rfl⟩

end

/-- The loop over the longest runs. -/
theorem pushFullRuns_spec (v : Bool) (h : Consists self front last)
    (hlast : last.words ≠ []) (hfuel : number ≤ fuel) :
    (pushFullRuns fuel self v number).2 < 2 ^ 32 - 1 ∧
      ∃ front' last', Consists (pushFullRuns fuel self v number).1 front' last' ∧ last'.words ≠ [] ∧
        front'.flatMap Segment.words ++ last'.words ++
            List.replicate (pushFullRuns fuel self v number).2 (runWord v) =
          front.flatMap Segment.words ++ last.words ++ List.replicate number (runWord v) := by
  induction fuel generalizing self front last number with
  | zero =>
    obtain rfl : number = 0 := le_zero.mp hfuel
    exact ⟨show 0 < 2 ^ 32 - 1 by decide, front, last, h, hlast, rfl⟩
  | succ fuel ih =>
    rw [pushFullRuns, toNat_largestRunningCount]
    split_ifs with hfull
    · obtain ⟨last', hlast', hrun⟩ := h.pushRun hlast v (show 2 ^ 32 - 1 < 2 ^ 32 by decide)
      have hne : last'.words ≠ [] := hrun.words_ne_nil (by decide)
      obtain ⟨hlt, front'', last'', hconsists, hnonempty, hwords⟩ :=
        ih hlast' hne (show number - (2 ^ 32 - 1) ≤ fuel by omega)
      refine ⟨hlt, front'', last'', hconsists, hnonempty, hwords.trans ?_⟩
      rw [hrun.words_eq, flatMap_append, flatMap_singleton, append_assoc,
        replicate_append_replicate, Nat.add_sub_cancel' hfull]
    · exact ⟨Nat.lt_of_not_le hfull, front, last, h, hlast, rfl⟩

/-- **`add_empty_words`** adds a run. -/
theorem addEmptyWords_spec (h : WellFormed self) (v : Bool) (hnumber : 0 < number) :
    Closed (addEmptyWords self v number) (self.words ++ List.replicate number (runWord v)) := by
  obtain ⟨front, last, h⟩ := h
  obtain ⟨front', run, n, hselect, hrun, hwords⟩ := h.selectRun v
  have hlen : runLen (selectRun self v).marker = n := by rw [hselect.marker_eq, hrun.len]
  have hlt := runLen_lt (selectRun self v).marker
  have hcan := toNat_sub_runningLen (selectRun self v).marker
  rw [hlen] at hlt hcan
  rw [addEmptyWords, hcan]
  have hadd : (rlwGetRunningLen (selectRun self v).marker +
      BitVec.ofNat 64 (min number (2 ^ 32 - 1 - n))).toNat = n + min number (2 ^ 32 - 1 - n) := by
    rw [toNat_add_ofNat _ (show runLen _ + _ < _ by omega), ← runLen, hlen]
  obtain ⟨grown, hgrown, hgrownRun⟩ := hselect.setRunningLen hrun
    (show (rlwGetRunningLen (selectRun self v).marker +
      BitVec.ofNat 64 (min number (2 ^ 32 - 1 - n))).toNat < 2 ^ 32 by omega)
  rw [hadd] at hgrownRun
  have hne : grown.words ≠ [] := hgrownRun.words_ne_nil (by omega)
  obtain ⟨hrest, front'', last'', hloop, hnonempty, hloopWords⟩ :=
    pushFullRuns_spec v hgrown hne le_rfl
  have hsum : front'.flatMap Segment.words ++ grown.words ++
      List.replicate (number - min number (2 ^ 32 - 1 - n)) (runWord v) =
      self.words ++ List.replicate number (runWord v) := by
    have hcount : n + min number (2 ^ 32 - 1 - n) + (number - min number (2 ^ 32 - 1 - n)) =
        n + number := by omega
    rw [h.words_eq, ← hwords, hgrownRun.words_eq, hrun.words_eq, append_assoc, append_assoc,
      replicate_append_replicate, replicate_append_replicate, hcount]
  rw [hsum] at hloopWords
  split_ifs with hpos
  · obtain ⟨final, hfinal, hfinalRun⟩ := hloop.pushRun hnonempty v (hrest.trans (by decide))
    refine ⟨_, _, hfinal, ?_, hfinalRun.words_ne_nil hpos.ne'⟩
    rw [hfinal.words_eq, hfinalRun.words_eq, flatMap_append, flatMap_singleton, hloopWords]
  · refine ⟨_, _, hloop, ?_, hnonempty⟩
    rw [Nat.eq_zero_of_not_pos hpos, replicate_zero, append_nil] at hloopWords
    rw [hloop.words_eq, hloopWords]

/-- The number of bits plays no role for being well formed. -/
theorem wellFormed_withBitSize (h : WellFormed self) (n : Nat) :
    WellFormed { self with bitSize := n } := by
  obtain ⟨front, last, h⟩ := h
  exact ⟨front, last, h.withBitSize n⟩

/-- **`ewah_add_empty_words`** appends a run. -/
theorem ewahAddEmptyWords_spec (h : WellFormed self) (v : Bool) (number : Nat) :
    Extends self (ewahAddEmptyWords self v number) (List.replicate number (runWord v)) := by
  rw [ewahAddEmptyWords]
  split_ifs with hzero
  · rw [hzero]
    exact ⟨h, (append_nil _).symm⟩
  · have hclosed := addEmptyWords_spec
      (wellFormed_withBitSize h (self.bitSize + number * bitsInEword)) v (Nat.pos_of_ne_zero hzero)
    exact hclosed.extends

/-- Appending a run keeps a bitmap tight. -/
theorem ewahAddEmptyWords_tight (h : Tight self) (v : Bool) (number : Nat) :
    Tight (ewahAddEmptyWords self v number) := by
  rw [ewahAddEmptyWords]
  split_ifs with hzero
  · exact h
  · exact (addEmptyWords_spec (wellFormed_withBitSize h.wellFormed _) v
      (Nat.pos_of_ne_zero hzero)).tight

/-- A marker without words. -/
theorem Segment.words_eq_nil_iff (s : Segment) :
    s.words = [] ↔ rlwGetLiteralWords s.marker = 0 ∧ rlwGetRunningLen s.marker = 0 := by
  constructor
  · intro h
    have hrun := Segment.isRun_of_words_eq_nil h
    exact ⟨Segment.literals_eq_nil_iff.mp hrun.literals, BitVec.eq_of_toNat_eq hrun.len⟩
  · rintro ⟨hliteral, hlen⟩
    rw [Segment.words, Segment.literals_eq_nil_iff.mpr hliteral, runLen, hlen]
    rfl

/-- The first step of `add_empty_word` changes no word and no count. -/
theorem Consists.selectBit (h : Consists self front last) (v : Bool) :
    ∃ last', Consists (selectBit self v) front last' ∧ last'.words = last.words ∧
      rlwGetLiteralWords last'.marker = rlwGetLiteralWords last.marker ∧
      rlwGetRunningLen last'.marker = rlwGetRunningLen last.marker ∧
      (last.words = [] → rlwGetRunBit last'.marker = v) := by
  rw [Ewah.selectBit, h.marker_eq]
  split_ifs with hempty
  · have hnil := last.words_eq_nil_iff.mpr hempty
    obtain ⟨last', hlast', hrun⟩ := h.setRunBit (Segment.isRun_of_words_eq_nil hnil) v
    rw [h.marker_eq] at hlast'
    have hnil' : last'.words = [] := hrun.words_eq
    obtain ⟨hliteral, hlen⟩ := last'.words_eq_nil_iff.mp hnil'
    exact ⟨last', hlast', hnil'.trans hnil.symm, hliteral.trans hempty.1.symm, hlen.trans hempty.2.symm,
      fun _ => hrun.bit⟩
  · exact ⟨last, h, rfl, rfl, rfl, fun hnil => absurd (last.words_eq_nil_iff.mp hnil) hempty⟩

/-- **`add_empty_word`** adds a word of a run. -/
theorem addEmptyWord_spec (h : WellFormed self) (v : Bool) :
    Closed (addEmptyWord self v) (self.words ++ [runWord v]) := by
  obtain ⟨front, last, h⟩ := h
  obtain ⟨last', h', hwords, hliteral, hlen, hbit⟩ := h.selectBit v
  rw [addEmptyWord, h.marker_eq, h'.marker_eq]
  split_ifs with hsame
  · -- the run of the last marker grows
    have hrun : last'.IsRun v (runLen last'.marker) :=
      ⟨Segment.literals_eq_nil_iff.mpr (hliteral.trans hsame.1), hsame.2.1, rfl⟩
    have hlt : runLen last'.marker < 2 ^ 32 - 1 := by
      rw [runLen, hlen]
      exact BitVec.lt_def.mp hsame.2.2
    have hnat : (rlwGetRunningLen last.marker + 1).toNat = runLen last'.marker + 1 := by
      rw [← hlen, runLen]
      exact toNat_add_ofNat (n := 1) _ (show runLen last'.marker + 1 < 2 ^ 64 by omega)
    obtain ⟨final, hfinal, hfinalRun⟩ := h'.setRunningLen hrun
      (show (rlwGetRunningLen last.marker + 1).toNat < 2 ^ 32 by omega)
    rw [h'.marker_eq] at hfinal
    rw [hnat] at hfinalRun
    refine ⟨_, _, hfinal, ?_, hfinalRun.words_ne_nil (succ_ne_zero _)⟩
    rw [hfinal.words_eq, hfinalRun.words_eq, h.words_eq, ← hwords, hrun.words_eq,
      replicate_succ', append_assoc]
  · have hne : last'.words ≠ [] := by
      intro hnil
      obtain ⟨hnoLiteral, hnoRun⟩ := last.words_eq_nil_iff.mp (hwords.symm.trans hnil)
      refine hsame ⟨hnoLiteral, hbit (hwords.symm.trans hnil), ?_⟩
      rw [hnoRun]
      decide
    obtain ⟨marked, hmarked, hrun⟩ := (h'.pushRlw hne).setRunBit Segment.isRun_empty v
    obtain ⟨final, hfinal, hfinalRun⟩ :=
      hmarked.setRunningLen hrun (show (1 : Eword).toNat < 2 ^ 32 by decide)
    refine ⟨_, _, hfinal, ?_, hfinalRun.words_ne_nil (by decide)⟩
    rw [hfinal.words_eq, hfinalRun.words_eq, flatMap_append, flatMap_singleton, h.words_eq, hwords]
    rfl

/-! ## Literal words -/

/-- Literal words are added behind the last marker. -/
theorem Consists.addLiterals (h : Consists self front last) {literals : List Eword} {l : Eword}
    (hl : l.toNat = literalLen last.marker + literals.length) (hlt : l.toNat < 2 ^ 31) (n : Nat) :
    ∃ last', Consists ⟨(self.setMarker (rlwSetLiteralWords self.marker l)).buffer ++ literals, n,
        (self.setMarker (rlwSetLiteralWords self.marker l)).rlw⟩ front last' ∧
      last'.words = last.words ++ literals := by
  have hword : (last.literals ++ literals).length = literalLen (rlwSetLiteralWords self.marker l) := by
    rw [length_append, literalLen_setLiteralWords _ hlt, hl, last.length_literals]
  refine ⟨_, h.pushLiterals hword n, ?_⟩
  change List.replicate (runLen (rlwSetLiteralWords self.marker l))
    (runWord (rlwGetRunBit (rlwSetLiteralWords self.marker l))) ++ (last.literals ++ literals) = _
  rw [runLen_setLiteralWords, rlwGetRunBit_setLiteralWords, h.marker_eq, ← append_assoc]
  rfl

/-- **`add_literal`** adds a word. -/
theorem addLiteral_spec (h : WellFormed self) (newData : Eword) :
    Closed (addLiteral self newData) (self.words ++ [newData]) := by
  obtain ⟨front, last, h⟩ := h
  rw [addLiteral, h.marker_eq]
  split_ifs with hfull
  · -- the last marker has as many literal words as it can
    have hne : last.words ≠ [] := by
      refine Segment.words_ne_nil_of_literals fun hzero => ?_
      rw [hzero] at hfull
      exact absurd hfull (by decide)
    obtain ⟨final, hfinal, hwords⟩ := @Consists.addLiterals _ _ _ (h.pushRlw hne) [newData] 1 rfl
      (by decide) self.bitSize
    refine ⟨_, _, hfinal, hfinal.words_eq.trans ?_, ?_⟩
    · rw [hwords, flatMap_append, flatMap_singleton, h.words_eq]
      rfl
    · rw [hwords]
      exact append_ne_nil_of_right_ne_nil _ (cons_ne_nil _ _)
  · have hroom : literalLen last.marker < 2 ^ 31 - 1 := by
      rw [ge_iff_le, BitVec.le_def, toNat_largestLiteralCount, not_le] at hfull
      exact hfull
    have hnat : (rlwGetLiteralWords last.marker + 1).toNat = literalLen last.marker + 1 :=
      toNat_add_ofNat (n := 1) _ (show literalLen last.marker + 1 < 2 ^ 64 by omega)
    obtain ⟨final, hfinal, hwords⟩ := @Consists.addLiterals _ _ _ h [newData] _ hnat (by omega)
      self.bitSize
    rw [h.marker_eq] at hfinal
    refine ⟨_, _, hfinal, hfinal.words_eq.trans ?_, ?_⟩
    · rw [hwords, h.words_eq, append_assoc]
    · rw [hwords]
      exact append_ne_nil_of_right_ne_nil _ (cons_ne_nil _ _)

/-- The loop adds all words. There is one more round if the last marker is full already. -/
theorem addDirtyWordsLoop_spec (negate : Bool) {buffer : List Eword}
    (h : Consists self front last)
    (hfuel : buffer.length + (if literalLen last.marker = 2 ^ 31 - 1 then 1 else 0) < fuel) :
    ∃ front' last', Consists (addDirtyWordsLoop negate fuel self buffer) front' last' ∧
      (addDirtyWordsLoop negate fuel self buffer).words =
        self.words ++ buffer.map (negated negate) ∧
      (addDirtyWordsLoop negate fuel self buffer).bitSize =
        self.bitSize + buffer.length * bitsInEword ∧
      (last'.words = [] → front' = front ∧ last.words = [] ∧ buffer = []) := by
  induction fuel generalizing self front last buffer with
  | zero => exact absurd hfuel (not_lt_zero _)
  | succ fuel ih =>
    have hlt := literalLen_lt last.marker
    have hroom := toNat_sub_literalWords last.marker
    have hnat : (rlwGetLiteralWords last.marker +
        BitVec.ofNat 64 (min buffer.length (2 ^ 31 - 1 - literalLen last.marker))).toNat =
        literalLen last.marker + min buffer.length (2 ^ 31 - 1 - literalLen last.marker) :=
      toNat_add_ofNat _ (show literalLen last.marker + _ < 2 ^ 64 by omega)
    have htake : ((buffer.take (min buffer.length (2 ^ 31 - 1 - literalLen last.marker))).map
        (negated negate)).length = min buffer.length (2 ^ 31 - 1 - literalLen last.marker) := by
      rw [length_map, length_take]
      omega
    rw [addDirtyWordsLoop, h.marker_eq, hroom]
    generalize hcan : min buffer.length (2 ^ 31 - 1 - literalLen last.marker) = canAdd at *
    obtain ⟨grown, hgrown, hwords⟩ := @Consists.addLiterals _ _ _ h
      ((buffer.take canAdd).map (negated negate)) _ (by rw [htake]; exact hnat) (by omega)
      ((self.setMarker (rlwSetLiteralWords last.marker
        (rlwGetLiteralWords last.marker + BitVec.ofNat 64 canAdd))).bitSize + canAdd * bitsInEword)
    rw [h.marker_eq] at hgrown
    have hgrownWords := hgrown.words_eq
    rw [hwords, ← append_assoc, ← h.words_eq] at hgrownWords
    split_ifs with hdone
    · refine ⟨_, _, hgrown, hgrownWords.trans ?_, ?_, fun hnil => ?_⟩
      · rw [take_of_length_le (by omega)]
      · rw [show canAdd = buffer.length by omega]
        rfl
      · rw [hwords, take_of_length_le (by omega), append_eq_nil_iff, map_eq_nil_iff] at hnil
        exact ⟨rfl, hnil⟩
    · -- the marker is full, and the next one has room
      have hne : grown.words ≠ [] := by
        rw [hwords]
        intro hnil
        have hlength := congrArg List.length hnil
        rw [length_append, htake, last.length_words, length_nil] at hlength
        omega
      have hnext := @ih _ _ Segment.empty (buffer.drop canAdd) (hgrown.pushRlw hne) (by
        rw [length_drop, if_neg (by rw [Segment.empty, zero_marker.2.2]; decide)]
        split_ifs at hfuel <;> omega)
      obtain ⟨front', last', hconsists, hnextWords, hbits, hempty⟩ := hnext
      refine ⟨front', last', hconsists, hnextWords.trans ?_, hbits.trans ?_, fun hnil => ?_⟩
      · rw [(hgrown.pushRlw hne).words_eq, Segment.words_empty, append_nil,
          flatMap_append, flatMap_singleton, ← hgrown.words_eq, hgrownWords,
          append_assoc, ← map_append, take_append_drop]
      · have hle : canAdd ≤ buffer.length := by omega
        rw [bufferPushRlw_bitSize, bufferPush_bitSize, length_drop, add_assoc, ← add_mul,
          Nat.add_sub_cancel' hle]
        rfl
      grind

/-- The rounds that the literals take. -/
theorem addDirtyWords_fuel (buffer : List Eword) (last : Segment) : buffer.length +
    (if literalLen last.marker = 2 ^ 31 - 1 then 1 else 0) < buffer.length + 2 := by
  split_ifs <;> omega

/-- **`ewah_add_dirty_words`** adds words as they are, or turned around. -/
theorem ewahAddDirtyWords_spec (h : WellFormed self) (buffer : List Eword) (negate : Bool) :
    Extends self (ewahAddDirtyWords self buffer negate) (buffer.map (negated negate)) := by
  obtain ⟨front, last, h⟩ := h
  obtain ⟨front', last', hconsists, hwords, -, -⟩ := addDirtyWordsLoop_spec negate h
    (addDirtyWords_fuel buffer last)
  exact ⟨⟨front', last', hconsists⟩, hwords⟩

/-- Appending literals keeps a bitmap tight. -/
theorem ewahAddDirtyWords_tight (h : Tight self) (buffer : List Eword) (negate : Bool) :
    Tight (ewahAddDirtyWords self buffer negate) := by
  obtain ⟨front, last, h, hfront⟩ := h
  obtain ⟨front', last', hconsists, -, -, hempty⟩ := addDirtyWordsLoop_spec negate h
    (addDirtyWords_fuel buffer last)
  refine ⟨front', last', hconsists, fun hnil => ?_⟩
  grind

/-- **`ewah_add`** adds a word. -/
theorem ewahAdd_spec (h : WellFormed self) (word : Eword) :
    Closed (ewahAdd self word) (self.words ++ [word]) := by
  have h' := wellFormed_withBitSize h (self.bitSize + bitsInEword)
  rw [ewahAdd]
  split_ifs with hzero hones
  · rw [hzero]
    exact addEmptyWord_spec h' false
  · rw [hones]
    exact addEmptyWord_spec h' true
  · exact addLiteral_spec h' word

/-- A word has 64 bits. -/
@[simp] theorem bitSize_ewahAdd (self : EwahBitmap) (word : Eword) :
    (ewahAdd self word).bitSize = self.bitSize + bitsInEword := by
  rw [ewahAdd]
  split_ifs <;> simp

/-- A run counts all of its bits. -/
@[simp] theorem bitSize_ewahAddEmptyWords (self : EwahBitmap) (v : Bool) (number : Nat) :
    (ewahAddEmptyWords self v number).bitSize = self.bitSize + number * bitsInEword := by
  rw [ewahAddEmptyWords]
  split_ifs with hzero
  · rw [hzero, zero_mul, add_zero]
  · simp

/-- Literals count all of their bits. -/
theorem bitSize_ewahAddDirtyWords (h : WellFormed self) (buffer : List Eword) (negate : Bool) :
    (ewahAddDirtyWords self buffer negate).bitSize = self.bitSize + buffer.length * bitsInEword := by
  obtain ⟨front, last, h⟩ := h
  obtain ⟨-, -, -, -, hbits, -⟩ := addDirtyWordsLoop_spec negate h (addDirtyWords_fuel buffer last)
  exact hbits

/-- The bit that is set is the last one. -/
@[simp] theorem bitSize_ewahSet (self : EwahBitmap) (i : Nat) :
    (ewahSet self i).bitSize = i + 1 := by
  rw [ewahSet]
  dsimp only
  split_ifs <;> simp

/-! ## Single bits -/

/-- Without the last literal. -/
theorem Segment.dropLast_words (hne : s.literals ≠ []) :
    s.words.dropLast =
      List.replicate (runLen s.marker) (runWord (rlwGetRunBit s.marker)) ++ s.literals.dropLast := by
  rw [Segment.words, dropLast_append_of_ne_nil hne]

section

variable (h : Consists self front last)

include h

/-- The last word is in the last segment. -/
theorem Consists.dropLast_words (hne : last.words ≠ []) :
    self.words.dropLast = front.flatMap Segment.words ++ last.words.dropLast := by
  rw [h.words_eq, dropLast_append_of_ne_nil hne]

/-- The last word of the buffer is the last literal. -/
theorem Consists.dropLast_buffer (hne : last.literals ≠ []) : self.buffer.dropLast =
    front.flatMap Segment.encode ++ last.marker :: last.literals.dropLast := by
  rw [h.buffer_eq, dropLast_append_of_ne_nil (by simp [Segment.encode]), Segment.encode,
    dropLast_cons_of_ne_nil hne]

/-- The last literal word is replaced. -/
theorem Consists.replaceLast (hne : last.literals ≠ []) (word : Eword) :
    Closed { self with buffer := self.buffer.dropLast ++ [word] } (self.words.dropLast ++ [word]) := by
  have hliterals : (last.literals.dropLast ++ [word]).length = literalLen last.marker := by
    rw [← last.length_literals, length_append, length_dropLast, length_singleton]
    exact Nat.sub_add_cancel (length_pos_iff_ne_nil.mpr hne)
  have hlast : last.words ≠ [] := append_ne_nil_of_right_ne_nil _ hne
  have hconsists : Consists { self with buffer := self.buffer.dropLast ++ [word] } front
      ⟨last.marker, last.literals.dropLast ++ [word], hliterals⟩ := by
    refine ⟨?_, h.rlw_eq, h.nonempty⟩
    rw [h.dropLast_buffer hne, append_assoc]
    rfl
  refine ⟨_, _, hconsists, ?_, by simp [Segment.words]⟩
  rw [hconsists.words_eq, h.dropLast_words hlast, Segment.dropLast_words hne, Segment.words]
  simp only [append_assoc]

/-- The last literal word is taken away. -/
theorem Consists.dropLiteral (hne : last.literals ≠ []) :
    ∃ last', Consists ((EwahBitmap.setMarker { self with buffer := self.buffer.dropLast })
      (rlwSetLiteralWords (EwahBitmap.marker { self with buffer := self.buffer.dropLast })
        (rlwGetLiteralWords (EwahBitmap.marker { self with buffer := self.buffer.dropLast }) - 1)))
          front last' ∧
      last'.words = last.words.dropLast := by
  have hpos := length_pos_iff_ne_nil.mpr hne
  have hlt := literalLen_lt last.marker
  rw [last.length_literals] at hpos
  have hbuffer := h.dropLast_buffer hne
  have hmarker : EwahBitmap.marker { self with buffer := self.buffer.dropLast } = last.marker := by
    rw [EwahBitmap.marker]
    rw [hbuffer, h.rlw_eq, getD_eq_getElem?_getD, getElem?_append_right le_rfl, Nat.sub_self]
    rfl
  have hnat : (rlwGetLiteralWords last.marker - 1).toNat = literalLen last.marker - 1 := by
    have hle : (1 : Eword) ≤ rlwGetLiteralWords last.marker := BitVec.le_def.mpr hpos
    rw [BitVec.toNat_sub_of_le hle]
    rfl
  have hliterals : last.literals.dropLast.length =
      literalLen (rlwSetLiteralWords last.marker (rlwGetLiteralWords last.marker - 1)) := by
    rw [literalLen_setLiteralWords _ (by omega), hnat, length_dropLast, last.length_literals]
  rw [hmarker]
  refine ⟨⟨_, last.literals.dropLast, hliterals⟩, ⟨?_, h.rlw_eq, h.nonempty⟩, ?_⟩
  · rw [EwahBitmap.setMarker]
    rw [hbuffer, h.rlw_eq, set_append_right _ _ le_rfl, Nat.sub_self]
    rfl
  · rw [Segment.dropLast_words hne, Segment.words, runLen_setLiteralWords,
      rlwGetRunBit_setLiteralWords]

/-- A run loses its last word. -/
theorem Consists.shortenRun (hliterals : last.literals = []) (hne : last.words ≠ []) :
    ∃ last', Consists (self.setMarker
        (rlwSetRunningLen self.marker (rlwGetRunningLen self.marker - 1))) front last' ∧
      last'.words = last.words.dropLast := by
  have hrun : last.IsRun (rlwGetRunBit last.marker) (runLen last.marker) := ⟨hliterals, rfl, rfl⟩
  have hpos : 0 < runLen last.marker := by
    rw [Nat.pos_iff_ne_zero]
    rwa [hrun.words_eq, ne_eq, replicate_eq_nil_iff] at hne
  have hlt := runLen_lt last.marker
  have hnat : (rlwGetRunningLen self.marker - 1).toNat = runLen last.marker - 1 := by
    have hle : (1 : Eword) ≤ rlwGetRunningLen self.marker := by
      rw [h.marker_eq]
      exact BitVec.le_def.mpr hpos
    rw [BitVec.toNat_sub_of_le hle, h.marker_eq]
    rfl
  obtain ⟨last', hlast', hrun'⟩ := h.setRunningLen hrun
    (show (rlwGetRunningLen self.marker - 1).toNat < 2 ^ 32 by omega)
  refine ⟨last', hlast', ?_⟩
  rw [hrun'.words_eq, hrun.words_eq, hnat, dropLast_replicate]

end

/-- `DIV_ROUND_UP(bits, BITS_IN_EWORD)`: the number of words for some bits. -/
def wordCount (bits : Nat) : Nat := (bits + 63) / bitsInEword

/-- More bits do not take fewer words. -/
theorem wordCount_mono : Monotone wordCount := fun a b h => Nat.div_le_div_right (by omega)

/-- Whole words are counted one by one. -/
theorem wordCount_add_mul (bits n : Nat) : wordCount (bits + n * bitsInEword) = wordCount bits + n := by
  simp only [wordCount, bitsInEword]
  omega

/-- `(eword_t)1 << (i % BITS_IN_EWORD)` -/
def bitWord (i : Nat) : Eword := 1 <<< (i % bitsInEword)

variable {i : Nat}

/-- **`ewah_set`** of a bit behind the last word adds empty words and a literal one. -/
theorem ewahSet_far (h : WellFormed self) (hfar : wordCount self.bitSize < wordCount (i + 1)) :
    Closed (ewahSet self i) (self.words ++
      (List.replicate (wordCount (i + 1) - wordCount self.bitSize - 1) 0 ++ [bitWord i])) := by
  have h' := wellFormed_withBitSize h (i + 1)
  have hdist : (i + 1 + 63) / bitsInEword - (self.bitSize + 63) / bitsInEword > 0 :=
    Nat.sub_pos_of_lt hfar
  rw [ewahSet]
  split_ifs with hskip
  · have hempty := addEmptyWords_spec h' false (Nat.sub_pos_of_lt hskip)
    have hliteral := addLiteral_spec hempty.tight.wellFormed (bitWord i)
    rw [hempty.words_eq, words_withBitSize, append_assoc] at hliteral
    exact hliteral
  · have hone : wordCount (i + 1) - wordCount self.bitSize - 1 = 0 := by
      simp only [wordCount]
      omega
    have hliteral := addLiteral_spec h' (bitWord i)
    rw [hone]
    exact hliteral

/-- The word that `ewah_set` makes of the last word of a bitmap. The word of a run is replaced. -/
def setInLast (self : EwahBitmap) (i : Nat) : Eword :=
  if rlwGetLiteralWords self.marker = 0 then bitWord i else self.words.getLastD 0 ||| bitWord i

/-- **`ewah_set`** of a bit in the last word changes that word. -/
theorem ewahSet_near (h : Tight self) (hne : self.words ≠ [])
    (hnear : wordCount (i + 1) ≤ wordCount self.bitSize) :
    Closed (ewahSet self i) (self.words.dropLast ++ [setInLast self i]) := by
  obtain ⟨front, last, h, hempty⟩ := h
  have hlast : last.words ≠ [] := by
    intro hnil
    apply hne
    rw [h.words_eq, hnil, hempty hnil]
    rfl
  have h' := h.withBitSize (i + 1)
  have hdist : ¬ (i + 1 + 63) / bitsInEword - (self.bitSize + 63) / bitsInEword > 0 := by
    simp only [wordCount] at hnear
    omega
  have hwords : (front.flatMap Segment.words ++ last.words.dropLast) = self.words.dropLast :=
    (h.dropLast_words hlast).symm
  have hmarker : EwahBitmap.marker { self with bitSize := i + 1 } = last.marker := h'.marker_eq
  rw [ewahSet, setInLast, h.marker_eq]
  dsimp only
  rw [if_neg hdist, hmarker]
  by_cases hliteral : rlwGetLiteralWords last.marker = 0
  · -- the run loses a word, and a literal one follows
    obtain ⟨last', hshort, hshortWords⟩ := h'.shortenRun (Segment.literals_eq_nil_iff.mpr hliteral) hlast
    have hadded := addLiteral_spec ⟨_, _, hshort⟩ (bitWord i)
    rw [hshort.words_eq, hshortWords, hwords, hmarker] at hadded
    rw [if_pos hliteral, if_pos hliteral]
    exact hadded
  · have hliterals : last.literals ≠ [] := mt Segment.literals_eq_nil_iff.mp hliteral
    have hgetLast : self.words.getLastD 0 = self.buffer.getLastD 0 := by
      rw [getLastD_eq_getLast?, getLastD_eq_getLast?, h.buffer_eq, h.words_eq,
        getLast?_append_of_ne_nil _ hlast, Segment.words,
        getLast?_append_of_ne_nil _ hliterals, Segment.encode,
        getLast?_append_of_ne_nil _ (cons_ne_nil _ _), getLast?_cons_of_ne_nil hliterals]
    rw [if_neg hliteral, if_neg hliteral, hgetLast]
    split_ifs with hones
    · -- the word is complete, and goes into a run
      obtain ⟨last', hdrop, hdropWords⟩ := h'.dropLiteral hliterals
      have hadded := addEmptyWord_spec ⟨_, _, hdrop⟩ true
      rw [hdrop.words_eq, hdropWords, hwords] at hadded
      rw [show self.buffer.getLastD 0 ||| bitWord i = runWord true from hones]
      exact hadded
    · exact h'.replaceLast hliterals (self.buffer.getLastD 0 ||| bitWord i)

/-- **`ewah_set`** leaves no empty marker, and there are as many words as the bits need. -/
theorem ewahSet_tight (h : Tight self) (hcount : self.words.length = wordCount self.bitSize)
    (hi : self.bitSize ≤ i) :
    Tight (ewahSet self i) ∧ (ewahSet self i).words.length = wordCount (i + 1) := by
  have hmono : wordCount self.bitSize ≤ wordCount (i + 1) := by
    simp only [wordCount, bitsInEword]
    omega
  rcases hmono.lt_or_eq with hfar | hnear
  · have hset := ewahSet_far h.wellFormed hfar
    refine ⟨hset.tight, ?_⟩
    rw [hset.words_eq]
    grind
  · have hne : self.words ≠ [] := by
      rw [← length_pos_iff_ne_nil, hcount, hnear]
      simp only [wordCount, bitsInEword]
      omega
    have hset := ewahSet_near h hne hnear.ge
    refine ⟨hset.tight, ?_⟩
    have hpos := length_pos_iff_ne_nil.mpr hne
    rw [hset.words_eq, length_append, length_dropLast, length_singleton]
    omega

end GitCore.Ewah
