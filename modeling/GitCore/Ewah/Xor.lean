import GitCore.Ewah.Iterator
import GitCore.Lib.ZipPad

/-! # Exclusive or of compressed bitmaps

Two iterators go over the bitmaps. The one with the longer run is the predator: the words of the
other one, its prey, are moved to the result for the length of the run, turned around if it is a run
of ones. Where both have literal words, these are combined one by one. -/

namespace GitCore.Ewah

open Option List

/-- The words of the prey are moved for the length of the run of the predator. -/
def xorRun (fuel : Nat) (prey predator : RlwIterator) (out : EwahBitmap) :
    Option (RlwIterator × RlwIterator × EwahBitmap) :=
  let negateWords := predator.runningBit
  (rlwitDischarge fuel prey out (toULong predator.runningLen) negateWords).bind fun r =>
    let index := r.2.2
    let out := ewahAddEmptyWords r.2.1 negateWords (toULong predator.runningLen - index)
    (rlwitDiscardFirstWords fuel predator (toULong predator.runningLen)).map fun predator =>
      (r.1, predator, out)

/-- A round of the inner loop of `ewah_xor`. -/
def xorRound (fuel : Nat) (rlwI rlwJ : RlwIterator) (out : EwahBitmap) :
    Option (RlwIterator × RlwIterator × EwahBitmap) :=
  if rlwI.runningLen < rlwJ.runningLen then xorRun fuel rlwI rlwJ out
  else (xorRun fuel rlwJ rlwI out).map fun r => (r.2.1, r.1, r.2.2)

/-- The inner loop of `ewah_xor`, `none` without fuel. -/
def xorRunsLoop (fuel : Nat) : Nat → RlwIterator → RlwIterator → EwahBitmap →
    Option (RlwIterator × RlwIterator × EwahBitmap)
  | 0, _, _, _ => none
  | rounds + 1, rlwI, rlwJ, out =>
    if rlwI.runningLen > 0 ∨ rlwJ.runningLen > 0 then
      (xorRound fuel rlwI rlwJ out).bind fun r => xorRunsLoop fuel rounds r.1 r.2.1 r.2.2
    else some (rlwI, rlwJ, out)

/-- The loop over the literal words of both bitmaps. -/
def xorLiterals (rlwI rlwJ : RlwIterator) (literals : Nat) (out : EwahBitmap) : EwahBitmap :=
  (List.range literals).foldl (fun out k =>
    ewahAdd out (rlwI.buffer.getD (rlwI.literalWordStart + k) 0 ^^^
      rlwJ.buffer.getD (rlwJ.literalWordStart + k) 0)) out

/-- A round of the outer loop of `ewah_xor`. -/
def xorStep (fuel : Nat) (rlwI rlwJ : RlwIterator) (out : EwahBitmap) :
    Option (RlwIterator × RlwIterator × EwahBitmap) :=
  (xorRunsLoop fuel fuel rlwI rlwJ out).bind fun r =>
    let literals := min (toULong r.1.literalWords) (toULong r.2.1.literalWords)
    if literals ≠ 0 then
      let out := xorLiterals r.1 r.2.1 literals r.2.2
      (rlwitDiscardFirstWords fuel r.1 literals).bind fun rlwI =>
        (rlwitDiscardFirstWords fuel r.2.1 literals).map fun rlwJ => (rlwI, rlwJ, out)
    else some r

/-- The outer loop of `ewah_xor`, `none` without fuel. -/
def xorLoop (fuel : Nat) : Nat → RlwIterator → RlwIterator → EwahBitmap →
    Option (RlwIterator × RlwIterator × EwahBitmap)
  | 0, _, _, _ => none
  | rounds + 1, rlwI, rlwJ, out =>
    if rlwitWordSize rlwI > 0 ∧ rlwitWordSize rlwJ > 0 then
      (xorStep fuel rlwI rlwJ out).bind fun r => xorLoop fuel rounds r.1 r.2.1 r.2.2
    else some (rlwI, rlwJ, out)

/-- `ewah_xor`: the bitmap behind `out`, `none` if there is not enough fuel for its loops -/
def ewahXor (fuel : Nat) (ewahI ewahJ out : EwahBitmap) : Option EwahBitmap :=
  (xorLoop fuel fuel (rlwitInit ewahI) (rlwitInit ewahJ) out).bind fun r =>
    (if rlwitWordSize r.1 > 0 then rlwitDischarge fuel r.1 r.2.2 (2 ^ 64 - 1) false
      else rlwitDischarge fuel r.2.1 r.2.2 (2 ^ 64 - 1) false).map fun d =>
        { d.2.1 with bitSize := max ewahI.bitSize ewahJ.bitSize }

/-! ## Runs -/

variable {rlwI rlwJ prey predator : RlwIterator} {out out' : EwahBitmap} {fuel : Nat}
  {words : List Eword}

/-- The exclusive or of two sequences of words, with zero words behind the shorter one. -/
def xorWords : List Eword → List Eword → List Eword := zipPad (· ^^^ ·)

theorem xorWords_comm (l m : List Eword) : xorWords l m = xorWords m l :=
  zipPad_comm BitVec.xor_comm l m

theorem negated_eq_xor (b : Bool) (word : Eword) : negated b word = runWord b ^^^ word := by
  cases b with
  | false => simp [negated, runWord]
  | true =>
    rw [BitVec.xor_comm]
    exact BitVec.xor_allOnes.symm

/-- **What a step of the loops keeps**: the words of the result and those that are still to come. -/
structure Progress (out out' : EwahBitmap) (words words' : List Eword) : Prop where
  wellFormed : WellFormed out'
  words_eq : out'.words ++ words' = out.words ++ words

theorem Progress.trans {out'' : EwahBitmap} {words' words'' : List Eword}
    (h : Progress out out' words words') (h' : Progress out' out'' words' words'') :
    Progress out out'' words words'' :=
  ⟨h'.wellFormed, h'.words_eq.trans h.words_eq⟩

variable {wordsI wordsJ literals : List Eword} {rest : List Segment} {n : Nat} {b : Bool}

/-- **What the loops do**: the first `n` words of both bitmaps are passed. -/
structure Passed (wordsI wordsJ : List Eword) (s s' : RlwIterator × RlwIterator × EwahBitmap)
    (n : Nat) : Prop where
  bufferI : s'.1.buffer = s.1.buffer
  bufferJ : s'.2.1.buffer = s.2.1.buffer
  leftI : Denotes s'.1 (wordsI.drop n)
  leftJ : Denotes s'.2.1 (wordsJ.drop n)
  progress : Progress s.2.2 s'.2.2 (xorWords wordsI wordsJ)
    (xorWords (wordsI.drop n) (wordsJ.drop n))

theorem Passed.trans {s s' s'' : RlwIterator × RlwIterator × EwahBitmap} {m : Nat}
    (h : Passed wordsI wordsJ s s' n) (h' : Passed (wordsI.drop n) (wordsJ.drop n) s' s'' m) :
    Passed wordsI wordsJ s s'' (n + m) := by
  obtain ⟨hsameI, hsameJ, hI, hJ, hprogress⟩ := h'
  rw [drop_drop] at hI hJ
  rw [drop_drop, drop_drop] at hprogress
  exact ⟨hsameI.trans h.bufferI, hsameJ.trans h.bufferJ, hI, hJ, h.progress.trans hprogress⟩

/-- **A round against a run**: the run is passed in both bitmaps. -/
theorem xorRun_spec {r : Nat}
    {wordsQ : List Eword} (hprey : Denotes prey wordsQ) (hat : At predator b r literals rest)
    (hpredator : Denotes predator (leftWords b r literals rest)) (hout : WellFormed out)
    (hfuelQ : prey.buffer.length + wordsQ.length < fuel) (hfuelP : predator.buffer.length < fuel) :
    ∃ prey' predator' out', xorRun fuel prey predator out = some (prey', predator', out') ∧
      Passed (leftWords b r literals rest) wordsQ (predator, prey, out) (predator', prey', out') r := by
  have hlt := hpredator.1
  rw [length_leftWords] at hlt
  obtain ⟨prey', out', hdischarge, hsame, hprey', hformed, hwords⟩ :=
    rlwitDischarge_spec r b hprey hout hfuelQ
  obtain ⟨predator', hdiscard, hsame', hpredator'⟩ :=
    @Denotes.discard predator _ fuel r hpredator (by rw [length_leftWords]; omega) hfuelP
  obtain ⟨hformed', hempty⟩ := ewahAddEmptyWords_spec hformed b (r - min r wordsQ.length)
  rw [xorRun, hat.toULong_runningLen (by omega), hat.runningBit_eq, hdischarge, bind_some]
  rw [hdiscard, map_some]
  refine ⟨prey', predator', _, rfl, hsame', hsame, hpredator', hprey', hformed', ?_⟩
  have hrun : r - min r wordsQ.length = r - wordsQ.length := by omega
  rw [hempty, hwords, drop_leftWords_of_ge le_rfl, Nat.sub_self, drop_zero, xorWords, leftWords,
    zipPad_replicate_append, hrun, append_assoc, append_assoc,
    show negated b = fun word => runWord b ^^^ word from funext (negated_eq_xor b)]

section

variable (hI : Denotes rlwI wordsI) (hJ : Denotes rlwJ wordsJ) (hout : WellFormed out)
  (hfuelI : rlwI.buffer.length + wordsI.length < fuel)
  (hfuelJ : rlwJ.buffer.length + wordsJ.length < fuel)

include hI hJ hout hfuelI hfuelJ

/-- **A round of the inner loop** passes the longer run in both bitmaps. -/
theorem xorRound_spec (hrun : rlwI.runningLen > 0 ∨ rlwJ.runningLen > 0) :
    ∃ s r, xorRound fuel rlwI rlwJ out = some s ∧ 0 < r ∧ r ≤ max wordsI.length wordsJ.length ∧
      Passed wordsI wordsJ (rlwI, rlwJ, out) s r := by
  have hdenotesI := hI
  have hdenotesJ := hJ
  obtain ⟨-, bI, rI, literalsI, restI, hatI, -, rfl⟩ := hI
  obtain ⟨-, bJ, rJ, literalsJ, restJ, hatJ, -, rfl⟩ := hJ
  have hlengthI := length_leftWords bI rI literalsI restI
  have hlengthJ := length_leftWords bJ rJ literalsJ restJ
  rw [xorRound]
  rw [hatI.runningLen_eq, hatJ.runningLen_eq] at hrun ⊢
  split_ifs with hless
  · obtain ⟨rlwI', rlwJ', out', hstep, hsameJ, hsameI, hJ', hI', hprogress⟩ :=
      xorRun_spec hdenotesI hatJ hdenotesJ hout hfuelI (by omega)
    rw [xorWords_comm, xorWords_comm (List.drop _ _)] at hprogress
    exact ⟨_, rJ, hstep, by omega, by omega, hsameI, hsameJ, hI', hJ', hprogress⟩
  · obtain ⟨rlwJ', rlwI', out', hstep, hpassed⟩ :=
      xorRun_spec hdenotesJ hatI hdenotesI hout hfuelJ (by omega)
    grind

/-- **The inner loop** ends when neither bitmap has a run. -/
theorem xorRunsLoop_spec {rounds : Nat} (hrounds : wordsI.length + wordsJ.length < rounds) :
    ∃ s n, xorRunsLoop fuel rounds rlwI rlwJ out = some s ∧ s.1.runningLen ≤ 0 ∧
      s.2.1.runningLen ≤ 0 ∧ Passed wordsI wordsJ (rlwI, rlwJ, out) s n := by
  induction rounds generalizing rlwI rlwJ out wordsI wordsJ with
  | zero => exact absurd hrounds (Nat.not_lt_zero _)
  | succ rounds ih =>
    rw [xorRunsLoop]
    split_ifs with hrun
    · obtain ⟨s, r, hround, hpos, hle, hpassed⟩ := xorRound_spec hI hJ hout hfuelI hfuelJ hrun
      obtain ⟨s', n, hloop, hzeroI, hzeroJ, hpassed'⟩ := @ih _ _ _ _ _ hpassed.leftI hpassed.leftJ
        hpassed.progress.wellFormed (by simp only [hpassed.bufferI, length_drop]; omega)
        (by simp only [hpassed.bufferJ, length_drop]; omega) (by rw [length_drop, length_drop]; omega)
      rw [hround, bind_some]
      exact ⟨s', r + n, hloop, hzeroI, hzeroJ, hpassed.trans hpassed'⟩
    · rw [not_or, not_lt, not_lt] at hrun
      exact ⟨_, 0, rfl, hrun.1, hrun.2, rfl, rfl, hI, hJ, hout, rfl⟩

end

/-! ## Literal words -/

variable {self : EwahBitmap}

/-- Words are added one by one. -/
theorem foldl_ewahAdd_spec (h : WellFormed self) (f : Nat → Eword) (ks : List Nat) :
    Extends self (ks.foldl (fun out k => ewahAdd out (f k)) self) (ks.map f) := by
  induction ks generalizing self with
  | nil => exact ⟨h, (append_nil _).symm⟩
  | cons k ks ih =>
    have hadd := ewahAdd_spec h (f k)
    obtain ⟨hformed, hwords⟩ := ih hadd.tight.wellFormed
    refine ⟨hformed, ?_⟩
    rw [foldl_cons, hwords, hadd.words_eq, append_assoc]
    rfl

variable {it : RlwIterator} {rounds : Nat}

/-- A literal word of the current segment. -/
theorem At.getD_literal {r : Nat}
    (h : At it b r literals rest) {k : Nat} (hk : k < literals.length) :
    it.buffer.getD (it.literalWordStart + k) 0 = literals.getD k 0 := by
  conv_rhs => rw [← h.literals_eq]
  rw [getD_eq_getElem?_getD, getD_eq_getElem?_getD, getElem?_take_of_lt hk, getElem?_drop]

/-- The combined words of two lists of the same length. -/
theorem map_range_xor {l m : List Eword} (hl : l.length = n) (hm : m.length = n) :
    (List.range n).map (fun k => l.getD k 0 ^^^ m.getD k 0) = xorWords l m := by
  refine ext_getElem? fun k => ?_
  have hlength : (xorWords l m).length = n := by rw [xorWords, length_zipPad, hl, hm, max_self]
  rcases Nat.lt_or_ge k n with hk | hk
  · have hget := @getD_zipPad _ (· ^^^ ·) (0 : Eword) (fun _ => BitVec.zero_xor)
      (fun _ => BitVec.xor_zero) l m k
    rw [getElem?_map, getElem?_range hk, map_some, ← hget,
      getD_eq_getElem?_getD, ← xorWords, getElem?_eq_getElem (by omega), getD_some]
  · rw [getElem?_eq_none (by simpa using hk), getElem?_eq_none (by omega)]

/-- **Literal words against literal words.** -/
theorem xorLiterals_spec {bI bJ : Bool} {literalsI literalsJ : List Eword} {restI restJ : List Segment}
    (hI : At rlwI bI 0 literalsI restI) (hJ : At rlwJ bJ 0 literalsJ restJ) (hout : WellFormed out)
    (hn : n ≤ literalsI.length) (hn' : n ≤ literalsJ.length) :
    Progress out (xorLiterals rlwI rlwJ n out)
      (xorWords (leftWords bI 0 literalsI restI) (leftWords bJ 0 literalsJ restJ))
      (xorWords ((leftWords bI 0 literalsI restI).drop n) ((leftWords bJ 0 literalsJ restJ).drop n)) := by
  have hwords : ∀ (b : Bool) (literals : List Eword) (rest : List Segment), n ≤ literals.length →
      (leftWords b 0 literals rest).take n = literals.take n := by
    intro b literals rest hle
    rw [leftWords, replicate_zero, nil_append, take_append_of_le_length hle]
  obtain ⟨hformed, hadd⟩ := foldl_ewahAdd_spec hout (fun k =>
    rlwI.buffer.getD (rlwI.literalWordStart + k) 0 ^^^
      rlwJ.buffer.getD (rlwJ.literalWordStart + k) 0) (List.range n)
  refine ⟨hformed, ?_⟩
  have hmap : (List.range n).map (fun k => rlwI.buffer.getD (rlwI.literalWordStart + k) 0 ^^^
      rlwJ.buffer.getD (rlwJ.literalWordStart + k) 0) =
      xorWords (literalsI.take n) (literalsJ.take n) := by
    rw [← map_range_xor (length_take_of_le hn) (length_take_of_le hn')]
    refine map_congr_left fun k hk => ?_
    have hkn := mem_range.mp hk
    rw [hI.getD_literal (by omega), hJ.getD_literal (by omega)]
    simp only [getD_eq_getElem?_getD, getElem?_take_of_lt hkn]
  rw [xorLiterals, hadd, hmap, ← hwords bI literalsI restI hn, ← hwords bJ literalsJ restJ hn',
    append_assoc]
  have hlength : ((leftWords bI 0 literalsI restI).take n).length =
      ((leftWords bJ 0 literalsJ restJ).take n).length := by
    rw [hwords _ _ _ hn, hwords _ _ _ hn', length_take_of_le hn, length_take_of_le hn']
  rw [xorWords, ← zipPad_append hlength, take_append_drop, take_append_drop]

/-! ## The loop -/

/-- An iterator without a run. -/
theorem Denotes.at_zero (h : Denotes it words) (hrun : it.runningLen ≤ 0) :
    ∃ b literals rest, At it b 0 literals rest ∧ (literals = [] → rest = []) ∧
      words = leftWords b 0 literals rest := by
  obtain ⟨-, b, r, literals, rest, hat, hexhausted, hwords⟩ := h
  obtain rfl : r = 0 := by
    rw [hat.runningLen_eq] at hrun
    omega
  exact ⟨b, literals, rest, hat, hexhausted rfl, hwords⟩

section

variable (hI : Denotes rlwI wordsI) (hJ : Denotes rlwJ wordsJ) (hout : WellFormed out)
  (hfuel : rlwI.buffer.length + wordsI.length + (rlwJ.buffer.length + wordsJ.length) < fuel)

include hI hJ hout hfuel

/-- **A round of the outer loop** passes words in both bitmaps. -/
theorem xorStep_spec (hneI : wordsI ≠ []) (hneJ : wordsJ ≠ []) :
    ∃ s n, xorStep fuel rlwI rlwJ out = some s ∧ 0 < n ∧
      Passed wordsI wordsJ (rlwI, rlwJ, out) s n := by
  obtain ⟨⟨rlwI', rlwJ', out'⟩, n, hruns, hzeroI, hzeroJ, hpassed⟩ :=
    @xorRunsLoop_spec rlwI rlwJ out fuel wordsI wordsJ hI hJ hout (by omega) (by omega) fuel (by omega)
  obtain ⟨bI, literalsI, restI, hatI, hexhaustedI, hwordsI⟩ := hpassed.leftI.at_zero hzeroI
  obtain ⟨bJ, literalsJ, restJ, hatJ, hexhaustedJ, hwordsJ⟩ := hpassed.leftJ.at_zero hzeroJ
  have hsameI : rlwI'.buffer = rlwI.buffer := hpassed.bufferI
  have hsameJ : rlwJ'.buffer = rlwJ.buffer := hpassed.bufferJ
  have hltI := hpassed.leftI.1
  have hltJ := hpassed.leftJ.1
  have hlengthI := length_leftWords bI 0 literalsI restI
  have hlengthJ := length_leftWords bJ 0 literalsJ restJ
  rw [← hwordsI] at hlengthI
  rw [← hwordsJ] at hlengthJ
  have hprogress := xorLiterals_spec hatI hatJ hpassed.progress.wellFormed
    (Nat.min_le_left literalsI.length literalsJ.length) (Nat.min_le_right _ _)
  rw [← hwordsI, ← hwordsJ] at hprogress
  obtain ⟨rlwI'', hdiscardI, hsameI', hI'⟩ := @Denotes.discard rlwI' _ fuel
    (min literalsI.length literalsJ.length) hpassed.leftI (by omega) (by rw [hsameI]; omega)
  obtain ⟨rlwJ'', hdiscardJ, hsameJ', hJ'⟩ := @Denotes.discard rlwJ' _ fuel
    (min literalsI.length literalsJ.length) hpassed.leftJ (by omega) (by rw [hsameJ]; omega)
  refine ⟨(rlwI'', rlwJ'', xorLiterals rlwI' rlwJ' _ out'), _, ?_, ?_,
    hpassed.trans ⟨hsameI', hsameJ', hI', hJ', hprogress⟩⟩
  · rw [xorStep, hruns, bind_some]
    dsimp only
    rw [hatI.toULong_literalWords (by omega), hatJ.toULong_literalWords (by omega)]
    split_ifs with hliterals
    · rw [hdiscardI, bind_some, hdiscardJ, map_some]
    -- without literal words nothing is passed
    rw [not_not] at hliterals
    rw [hliterals, rlwitDiscardFirstWords_zero] at hdiscardI hdiscardJ
    rw [Option.some.inj hdiscardI, Option.some.inj hdiscardJ, hliterals]
    rfl
  · -- with no run and no literal words one of the bitmaps would have been at its end
    by_contra hzero
    obtain ⟨rfl, hmin⟩ : n = 0 ∧ min literalsI.length literalsJ.length = 0 := by omega
    rcases Nat.min_eq_zero_iff.mp hmin with hnil | hnil
    · rw [length_eq_zero_iff] at hnil
      rw [hexhaustedI hnil, hnil] at hwordsI
      exact hneI hwordsI
    · rw [length_eq_zero_iff] at hnil
      rw [hexhaustedJ hnil, hnil] at hwordsJ
      exact hneJ hwordsJ

/-- **The outer loop** ends when one of the bitmaps has no words left. -/
theorem xorLoop_spec (hrounds : wordsI.length + wordsJ.length < rounds) :
    ∃ s n, xorLoop fuel rounds rlwI rlwJ out = some s ∧
      (wordsI.drop n = [] ∨ wordsJ.drop n = []) ∧ Passed wordsI wordsJ (rlwI, rlwJ, out) s n := by
  induction rounds generalizing rlwI rlwJ out wordsI wordsJ with
  | zero => exact absurd hrounds (Nat.not_lt_zero _)
  | succ rounds ih =>
    rw [xorLoop]
    split_ifs with hmore
    · have hneI : wordsI ≠ [] := fun hnil => hmore.1.ne' (hI.wordSize_eq_zero_iff.mpr hnil)
      have hneJ : wordsJ ≠ [] := fun hnil => hmore.2.ne' (hJ.wordSize_eq_zero_iff.mpr hnil)
      have hpos := length_pos_iff_ne_nil.mpr hneI
      obtain ⟨s, n, hstep, hn, hpassed⟩ := xorStep_spec hI hJ hout hfuel hneI hneJ
      obtain ⟨s', m, hloop, hend, hpassed'⟩ := @ih _ _ _ _ _ hpassed.leftI hpassed.leftJ
        hpassed.progress.wellFormed
        (by simp only [hpassed.bufferI, hpassed.bufferJ, length_drop, length_drop]; omega)
        (by rw [length_drop, length_drop]; omega)
      rw [drop_drop, drop_drop] at hend
      rw [hstep, bind_some]
      exact ⟨s', n + m, hloop, hend, hpassed.trans hpassed'⟩
    · refine ⟨_, 0, rfl, ?_, rfl, rfl, hI, hJ, hout, rfl⟩
      rw [not_and_or, Nat.not_lt, Nat.not_lt, Nat.le_zero, Nat.le_zero] at hmore
      exact hmore.imp hI.wordSize_eq_zero_iff.mp hJ.wordSize_eq_zero_iff.mp

end

/-- The rest of one bitmap is moved as it is. -/
theorem discharge_all (h : Denotes it words)
    (hout : WellFormed out) (hfuel : it.buffer.length + words.length < fuel) :
    ∃ it' out' n, rlwitDischarge fuel it out (2 ^ 64 - 1) false = some (it', out', n) ∧
      Extends out out' words := by
  obtain ⟨it', out', hdischarge, -, -, hformed, hwords⟩ :=
    rlwitDischarge_spec (2 ^ 64 - 1) false h hout hfuel
  have hlt := h.1
  refine ⟨it', out', _, hdischarge, hformed, ?_⟩
  rw [hwords, take_of_length_le (by omega)]
  exact congrArg _ (map_id words)

/-- **`ewah_xor`** ends and gives the exclusive or of the words. -/
theorem ewahXor_spec {ewahI ewahJ : EwahBitmap} (hI : WellFormed ewahI) (hJ : WellFormed ewahJ)
    (hltI : ewahI.words.length < 2 ^ 31) (hltJ : ewahJ.words.length < 2 ^ 31) (hout : WellFormed out)
    (hfuel : ewahI.buffer.length + ewahI.words.length +
      (ewahJ.buffer.length + ewahJ.words.length) < fuel) :
    ∃ out', ewahXor fuel ewahI ewahJ out = some out' ∧
      Extends out out' (xorWords ewahI.words ewahJ.words) := by
  obtain ⟨hinitI, hbufferI⟩ := denotes_rlwitInit hI hltI
  obtain ⟨hinitJ, hbufferJ⟩ := denotes_rlwitInit hJ hltJ
  obtain ⟨⟨rlwI, rlwJ, out'⟩, n, hloop, hend, hsameI, hsameJ, hrestI, hrestJ, hprogress⟩ :=
    @xorLoop_spec _ _ out fuel _ _ fuel hinitI hinitJ hout (by rw [hbufferI, hbufferJ]; omega)
      (by omega)
  have hdropI := @length_drop _ n ewahI.words
  have hdropJ := @length_drop _ n ewahJ.words
  have hwords := hprogress.words_eq
  rw [ewahXor, hloop, bind_some]
  split_ifs with hmore
  · -- the second bitmap is at its end
    have hnil : ewahJ.words.drop n = [] := hend.resolve_left fun hnil =>
      hmore.ne' (hrestI.wordSize_eq_zero_iff.mpr hnil)
    obtain ⟨it, final, k, hdischarge, hformed, hfinal⟩ := @discharge_all out' fuel _ _ hrestI
      hprogress.wellFormed (by rw [hsameI, hbufferI]; omega)
    rw [hdischarge, map_some]
    refine ⟨_, rfl, wellFormed_withBitSize hformed _, ?_⟩
    rw [hnil, xorWords, zipPad_nil_right, ← xorWords] at hwords
    rw [words_withBitSize, hfinal, hwords]
  · have hnil : ewahI.words.drop n = [] :=
      hrestI.wordSize_eq_zero_iff.mp (Nat.eq_zero_of_not_pos hmore)
    obtain ⟨it, final, k, hdischarge, hformed, hfinal⟩ := @discharge_all out' fuel _ _ hrestJ
      hprogress.wellFormed (by rw [hsameJ, hbufferJ]; omega)
    rw [hdischarge, map_some]
    refine ⟨_, rfl, wellFormed_withBitSize hformed _, ?_⟩
    rw [hnil, xorWords, zipPad_nil_left, ← xorWords] at hwords
    rw [words_withBitSize, hfinal, hwords]

/-! ## Bitmaps that are built by the functions of the source -/

/-- **A bitmap that is built** from an empty one by any calls that add words, by setting bits in
ascending order, and by exclusive or. -/
inductive Built : EwahBitmap → Prop
  | new : Built ewahNew
  | add {self : EwahBitmap} (h : Built self) (word : Eword) : Built (ewahAdd self word)
  | addEmptyWords {self : EwahBitmap} (h : Built self) (v : Bool) (number : Nat) :
      Built (ewahAddEmptyWords self v number)
  | addDirtyWords {self : EwahBitmap} (h : Built self) (buffer : List Eword) (negate : Bool) :
      Built (ewahAddDirtyWords self buffer negate)
  | set {self : EwahBitmap} (h : Built self) {i : Nat} (hi : self.bitSize ≤ i) : Built (ewahSet self i)
  | xor {fuel : Nat} {ewahI ewahJ out : EwahBitmap} (hI : Built ewahI) (hJ : Built ewahJ)
      (hltI : ewahI.words.length < 2 ^ 31) (hltJ : ewahJ.words.length < 2 ^ 31)
      (hfuel : ewahI.buffer.length + ewahI.words.length +
        (ewahJ.buffer.length + ewahJ.words.length) < fuel)
      (hxor : ewahXor fuel ewahI ewahJ ewahNew = some out) : Built out

/-- **A bitmap that has grown** from another one by calls that add words. -/
inductive Grown (self : EwahBitmap) : EwahBitmap → Prop
  | refl : Grown self self
  | add {out : EwahBitmap} (h : Grown self out) (word : Eword) : Grown self (ewahAdd out word)
  | addEmptyWords {out : EwahBitmap} (h : Grown self out) (v : Bool) (number : Nat) :
      Grown self (ewahAddEmptyWords out v number)
  | addDirtyWords {out : EwahBitmap} (h : Grown self out) (buffer : List Eword) (negate : Bool) :
      Grown self (ewahAddDirtyWords out buffer negate)

theorem Grown.trans (h : Grown self out) (h' : Grown out out') :
    Grown self out' := by
  induction h' with
  | refl => exact h
  | add _ word ih => exact ih.add word
  | addEmptyWords _ v number ih => exact ih.addEmptyWords v number
  | addDirtyWords _ buffer negate ih => exact ih.addDirtyWords buffer negate

theorem Grown.tight (h : Grown self out) (hself : Tight self) : Tight out := by
  induction h with
  | refl => exact hself
  | add _ word ih => exact (ewahAdd_spec ih.wellFormed word).tight
  | addEmptyWords _ v number ih => exact ewahAddEmptyWords_tight ih v number
  | addDirtyWords _ buffer negate ih => exact ewahAddDirtyWords_tight ih buffer negate

theorem grown_rlwitDischargeLoop {max index : Nat} {negate : Bool}
    {r : RlwIterator × EwahBitmap × Nat}
    (h : rlwitDischargeLoop fuel max negate rounds it out index = some r) : Grown out r.2.1 := by
  induction rounds generalizing it out index with
  | zero => cases h
  | succ rounds ih =>
    rw [rlwitDischargeLoop] at h
    split_ifs at h with hmore
    · obtain ⟨s, hstep, hloop⟩ := bind_eq_some_iff.mp h
      obtain ⟨it', -, rfl⟩ := map_eq_some_iff.mp hstep
      refine Grown.trans ?_ (ih hloop)
      apply Grown.addDirtyWords
      apply Grown.addEmptyWords
      exact .refl
    · obtain rfl := Option.some.inj h
      exact .refl

variable {r : RlwIterator × RlwIterator × EwahBitmap}

theorem grown_xorRun (h : xorRun fuel prey predator out = some r) : Grown out r.2.2 := by
  obtain ⟨s, hdischarge, h⟩ := bind_eq_some_iff.mp h
  obtain ⟨it, -, rfl⟩ := map_eq_some_iff.mp h
  exact (grown_rlwitDischargeLoop hdischarge).addEmptyWords _ _

theorem grown_xorRunsLoop (h : xorRunsLoop fuel rounds rlwI rlwJ out = some r) :
    Grown out r.2.2 := by
  induction rounds generalizing rlwI rlwJ out with
  | zero => cases h
  | succ rounds ih =>
    rw [xorRunsLoop] at h
    split_ifs at h with hmore
    · obtain ⟨s, hround, hloop⟩ := bind_eq_some_iff.mp h
      have hgrown : Grown out s.2.2 := by
        rw [xorRound] at hround
        split_ifs at hround with hshorter
        · exact grown_xorRun hround
        obtain ⟨t, hrun, rfl⟩ := map_eq_some_iff.mp hround
        have hgrown := grown_xorRun hrun
        exact hgrown
      exact hgrown.trans (ih hloop)
    · obtain rfl := Option.some.inj h
      exact .refl

theorem grown_foldl_ewahAdd (f : Nat → Eword) (ks : List Nat) (self : EwahBitmap) :
    Grown self (ks.foldl (fun out k => ewahAdd out (f k)) self) := by
  induction ks generalizing self with
  | nil => exact .refl
  | cons k ks ih => exact (Grown.refl.add (f k)).trans (ih _)

theorem grown_xorLoop (h : xorLoop fuel rounds rlwI rlwJ out = some r) : Grown out r.2.2 := by
  induction rounds generalizing rlwI rlwJ out with
  | zero => cases h
  | succ rounds ih =>
    rw [xorLoop] at h
    split_ifs at h with hmore
    · obtain ⟨s, hstep, hloop⟩ := bind_eq_some_iff.mp h
      obtain ⟨t, hruns, hstep⟩ := bind_eq_some_iff.mp hstep
      refine ((grown_xorRunsLoop hruns).trans ?_).trans (ih hloop)
      dsimp only at hstep
      split_ifs at hstep with hliterals
      · obtain ⟨itI, -, hstep⟩ := bind_eq_some_iff.mp hstep
        obtain ⟨itJ, -, rfl⟩ := map_eq_some_iff.mp hstep
        exact grown_foldl_ewahAdd _ _ _
      · obtain rfl := Option.some.inj hstep
        exact .refl
    · obtain rfl := Option.some.inj h
      exact .refl

/-- **`ewah_xor` only adds words to its result**, and sets `bit_size` at the end. -/
theorem ewahXor_grown {ewahI ewahJ : EwahBitmap} (h : ewahXor fuel ewahI ewahJ out = some out') :
    ∃ grown, Grown out grown ∧ out' = { grown with bitSize := max ewahI.bitSize ewahJ.bitSize } := by
  obtain ⟨r, hloop, h⟩ := bind_eq_some_iff.mp h
  obtain ⟨d, hdischarge, rfl⟩ := map_eq_some_iff.mp h
  refine ⟨d.2.1, (grown_xorLoop hloop).trans ?_, rfl⟩
  split_ifs at hdischarge with hmore
  · exact grown_rlwitDischargeLoop hdischarge
  · exact grown_rlwitDischargeLoop hdischarge

/-- **Every bitmap that is built** has no empty marker, unless it has no words, and it has as many
words as its bits need. -/
theorem Built.tight (h : Built self) : Tight self ∧ self.words.length = wordCount self.bitSize := by
  induction h with
  | new => exact ⟨tight_ewahNew, rfl⟩
  | add _ word ih =>
    have hadd := ewahAdd_spec ih.1.wellFormed word
    refine ⟨hadd.tight, ?_⟩
    rw [hadd.words_eq, bitSize_ewahAdd, length_append, ih.2, ← Nat.one_mul bitsInEword,
      wordCount_add_mul]
    rfl
  | addEmptyWords _ v number ih =>
    refine ⟨ewahAddEmptyWords_tight ih.1 v number, ?_⟩
    rw [(ewahAddEmptyWords_spec ih.1.wellFormed v number).2, bitSize_ewahAddEmptyWords,
      length_append, ih.2, length_replicate, wordCount_add_mul]
  | addDirtyWords _ buffer negate ih =>
    refine ⟨ewahAddDirtyWords_tight ih.1 buffer negate, ?_⟩
    rw [(ewahAddDirtyWords_spec ih.1.wellFormed buffer negate).2,
      bitSize_ewahAddDirtyWords ih.1.wellFormed, length_append, ih.2, length_map, wordCount_add_mul]
  | set _ hi ih =>
    rw [bitSize_ewahSet]
    exact ewahSet_tight ih.1 ih.2 hi
  | @xor fuel ewahI ewahJ out _ _ hltI hltJ hfuel hxor ihI ihJ =>
    obtain ⟨grown, hgrown, rfl⟩ := ewahXor_grown hxor
    obtain ⟨out', hout', hextends⟩ := ewahXor_spec ihI.1.wellFormed ihJ.1.wellFormed hltI hltJ
      wellFormed_ewahNew hfuel
    obtain rfl := Option.some.inj (hxor.symm.trans hout')
    refine ⟨(hgrown.tight tight_ewahNew).withBitSize _, ?_⟩
    rw [hextends.2, words_ewahNew, nil_append, xorWords, length_zipPad, ihI.2, ihJ.2]
    exact (wordCount_mono.map_max).symm

/-- **No function leaves an empty marker** before the last one. -/
theorem Built.wellFormed (h : Built self) : WellFormed self :=
  h.tight.1.wellFormed

/-- **The exclusive or of two bitmaps**: it ends with a bitmap that denotes the exclusive or of the
words, with zero words behind the shorter sequence. -/
def XorDenotes (a b out : EwahBitmap) : Prop :=
  ∃ n, ∀ fuel ≥ n, ∃ out', ewahXor fuel a b out = some out' ∧
    out'.words.length = max a.words.length b.words.length ∧
    (∀ k, out'.words.getD k 0 = a.words.getD k 0 ^^^ b.words.getD k 0) ∧
    -- a second time, with the same bitmap, leads back
    ∃ n', ∀ fuel ≥ n', ∃ back, ewahXor fuel out' b out = some back ∧
      ∃ zeros, back.words = a.words ++ List.replicate zeros 0

/-- **`ewah_xor` is right** for all bitmaps with fewer than 2^31 words. -/
theorem ewahXor_denotes_xor (a b out : EwahBitmap) (ha : Built a) (hb : Built b) (hout : Built out)
    (hlta : a.words.length < 2 ^ 31) (hltb : b.words.length < 2 ^ 31) (hempty : out.words = []) :
    XorDenotes a b out := by
  refine ⟨a.buffer.length + a.words.length + (b.buffer.length + b.words.length) + 1,
    fun fuel hfuel => ?_⟩
  obtain ⟨out', hxor, hformed, hwords⟩ := ewahXor_spec ha.wellFormed hb.wellFormed hlta hltb
    hout.wellFormed hfuel
  rw [hempty, nil_append] at hwords
  have hlength : out'.words.length = max a.words.length b.words.length := by
    rw [hwords, xorWords, length_zipPad]
  refine ⟨out', hxor, hlength, fun k => ?_,
    out'.buffer.length + out'.words.length + (b.buffer.length + b.words.length) + 1,
    fun fuel' hfuel' => ?_⟩
  · rw [hwords]
    exact getD_zipPad (fun _ => BitVec.zero_xor) (fun _ => BitVec.xor_zero) a.words b.words k
  obtain ⟨back, hback, -, hbackWords⟩ := ewahXor_spec hformed hb.wellFormed
    (by rw [hlength]; exact max_lt hlta hltb) hltb hout.wellFormed hfuel'
  refine ⟨back, hback, b.words.length - a.words.length, ?_⟩
  rw [hbackWords, hempty, nil_append, hwords]
  refine zipPad_zipPad_cancel (fun x y => ?_) (fun _ => BitVec.xor_self) _ _
  rw [BitVec.xor_assoc, BitVec.xor_self, BitVec.xor_zero]

/-- A literal word against a run of ones. -/
theorem ewahXor_denotes_xor_literal :
    XorDenotes (ewahAdd ewahNew 5) (ewahAddEmptyWords ewahNew true 3) ewahNew :=
  ewahXor_denotes_xor _ _ _ (.add .new 5) (.addEmptyWords .new true 3) .new (by decide) (by decide) rfl

example : (ewahXor 20 (ewahAdd ewahNew 5) (ewahAddEmptyWords ewahNew true 3) ewahNew).map
    EwahBitmap.words = some [~~~5, ~~~0, ~~~0] := by decide +kernel

end GitCore.Ewah
