import GitCore.Delta.Replay

/-! # Deltas round-trip: `patch_delta` undoes `create_delta`

The invariant of the main loop has two halves. `Encoded` relates the bytes written so far to the
target: complete opcodes that replay to some bytes, then a pending literal run, together covering
the target up to `data`. `Matches` says that the match at hand, carried over from an earlier
round or found in this one, really is a piece of the source that the target continues with. Every
branch of the loop keeps both (`emitStep_inv`) and consumes target bytes, so the loop ends with
the whole target encoded. -/

namespace GitCore.Delta

open List

variable {src trg : Bytes}

/-! ## The invariant -/

/-- Both size headers. -/
def headers (src trg : Bytes) : Bytes := hdrSize src.length ++ hdrSize trg.length

/-- `out` encodes the first `data` bytes of the target, the last `inscnt` of them as a pending
literal run whose count is not yet filled in. -/
def Encoded (src trg out : Bytes) (inscnt data : Nat) : Prop :=
  ∃ (ops done lits : Bytes) (slot : UInt8),
    out = headers src trg ++ ops ++ (if inscnt = 0 then [] else slot :: lits) ∧
      Opcodes src ops done ∧ lits.length = inscnt ∧ done ++ lits = trg.take data

/-- The source at `moff` and the target at `data` agree for `msize` bytes. -/
structure Matches (src trg : Bytes) (data moff msize : Nat) : Prop where
  /-- The match lies inside the source. -/
  src_le : moff + msize ≤ src.length
  /-- The match lies inside the target. -/
  trg_le : data + msize ≤ trg.length
  /-- The bytes are the same. -/
  bytes : (src.drop moff).take msize = (trg.drop data).take msize

/-- A match as the search leaves it: its length is an `unsigned int`, and unless it is empty its
offset fits the copy opcode. -/
structure Found (src trg : Bytes) (data moff msize : Nat) : Prop
    extends Matches src trg data moff msize where
  /-- The length fits an `unsigned int`. -/
  msize_lt : msize < 2 ^ 32
  /-- The offset fits the copy opcode. -/
  moff_lt : msize ≠ 0 → moff < 2 ^ 32

/-- What the main loop maintains. -/
structure DeltaInv (src trg : Bytes) (s : DeltaState) : Prop where
  /-- The output so far. -/
  encoded : Encoded src trg s.out s.inscnt s.data
  /-- A literal run is flushed at 127 bytes. -/
  inscnt_lt : s.inscnt < 0x7f
  /-- The match at hand. -/
  found : Found src trg s.data s.moff s.msize
  /-- The delta has the length `patch_delta` insists on. -/
  long : deltaSizeMin ≤ s.out.length

/-! ## Encoded output -/

variable {out : Bytes} {inscnt data size : Nat}

/-- Appending the next target byte to the pending run. -/
theorem Encoded.literal (h : Encoded src trg out inscnt data) (hdata : data < trg.length) :
    Encoded src trg ((if inscnt = 0 then out ++ [0] else out) ++ [trg.getD data 0]) (inscnt + 1)
      (data + 1) := by
  obtain ⟨ops, done, lits, slot, rfl, hops, hlits, hdone⟩ := h
  have htake : trg.take (data + 1) = trg.take data ++ [trg.getD data 0] := by
    rw [take_add_one, getD_eq_getElem?_getD, getElem?_eq_getElem hdata]
    rfl
  by_cases h0 : inscnt = 0
  · have hnil : lits = [] := length_eq_zero_iff.mp (hlits.trans h0)
    refine ⟨ops, done, [trg.getD data 0], 0, ?_, hops, by simp [h0], ?_⟩
    · simp [h0]
    · rw [htake, ← hdone, hnil, append_nil]
  · refine ⟨ops, done, lits ++ [trg.getD data 0], slot, ?_, hops, by simp [hlits], ?_⟩
    · simp [h0]
    · rw [htake, ← hdone, append_assoc]

/-- Filling in the count turns the pending run into an opcode. -/
theorem Encoded.flush (h : Encoded src trg out inscnt data) (hpos : inscnt ≠ 0)
    (hlt : inscnt < 128) : Encoded src trg (patchCount out inscnt) 0 data := by
  obtain ⟨ops, done, lits, slot, rfl, hops, rfl, hdone⟩ := h
  have hne : lits ≠ [] := fun hnil => hpos (by simp [hnil])
  refine ⟨ops ++ UInt8.ofNat lits.length :: lits, done ++ lits, [], 0, ?_,
    hops.append (opcodes_insert hne hlt), rfl, by rw [append_nil, hdone]⟩
  have hslot : (headers src trg ++ ops ++ slot :: lits).length - lits.length - 1
      = (headers src trg ++ ops).length := by
    simp only [length_append, length_cons]; omega
  rw [if_neg hpos, patchCount, hslot, set_append_right _ _ le_rfl]
  simp

/-- Filling in a count does not move `outpos`. -/
@[simp] theorem length_patchCount (out : Bytes) (inscnt : Nat) :
    (patchCount out inscnt).length = out.length := length_set

/-- Taking the last pending literal back, and with the only one its count slot. -/
theorem Encoded.unliteral (h : Encoded src trg out (inscnt + 1) data) (hdata : data ≤ trg.length) :
    1 ≤ data ∧ Encoded src trg (if inscnt = 0 then out.dropLast.dropLast else out.dropLast) inscnt
      (data - 1) := by
  obtain ⟨ops, done, lits, slot, rfl, hops, hlits, hdone⟩ := h
  have hlen : done.length + lits.length = data := by
    have := congrArg List.length hdone
    simpa [hdata] using this
  have hne : lits ≠ [] := fun hnil => by simp [hnil] at hlits
  have htake : done ++ lits.dropLast = trg.take (data - 1) := by
    rw [← dropLast_append_of_ne_nil hne, hdone, dropLast_eq_take, take_take, length_take]
    congr 1
    omega
  refine ⟨by omega, ops, done, lits.dropLast, slot, ?_, hops, by simp [hlits], htake⟩
  by_cases h0 : inscnt = 0
  · have hlen1 : lits.length = 1 := by omega
    obtain ⟨b, rfl⟩ := length_eq_one_iff.mp hlen1
    simp [h0, dropLast_append_of_ne_nil]
  · rw [if_neg (Nat.succ_ne_zero _), if_neg h0, if_neg h0,
      dropLast_append_of_ne_nil (cons_ne_nil _ _), dropLast_cons_of_ne_nil hne]

/-- Copying a match behind complete opcodes. -/
theorem Encoded.copy {moff : Nat} (h : Encoded src trg out 0 data)
    (hm : Matches src trg data moff size) (hoff : moff < 2 ^ 32) (hpos : 0 < size)
    (hsize : size ≤ 0x10000) : Encoded src trg (out ++ copyOp moff size) 0 (data + size) := by
  obtain ⟨ops, done, lits, slot, rfl, hops, hlits, hdone⟩ := h
  have hnil : lits = [] := length_eq_zero_iff.mp hlits
  refine ⟨ops ++ copyOp moff size, done ++ (src.drop moff).take size, [], 0, by simp,
    hops.append (opcodes_copyOp hoff hpos hsize hm.src_le), rfl, ?_⟩
  rw [hnil, append_nil] at hdone
  rw [append_nil, hm.bytes, hdone, take_add]

/-- Complete opcodes for the whole target make a delta that `patch_delta` turns back into it. -/
theorem Encoded.patchDelta (h : Encoded src trg out 0 trg.length) (hsrc : src.length < 2 ^ 64)
    (htrg : trg.length < 2 ^ 64) (hlong : deltaSizeMin ≤ out.length) :
    patchDelta src out = .ok trg := by
  obtain ⟨ops, done, lits, slot, rfl, hops, hlits, hdone⟩ := h
  have hnil : lits = [] := length_eq_zero_iff.mp hlits
  rw [hnil, append_nil, take_length] at hdone
  subst hdone
  rw [if_pos rfl, append_nil] at hlong ⊢
  exact patchDelta_of_opcodes hsrc htrg hops hlong

/-- The output starts with the headers. -/
theorem Encoded.headers_le (h : Encoded src trg out inscnt data) :
    (headers src trg).length ≤ out.length := by
  obtain ⟨ops, done, lits, slot, rfl, -, -, -⟩ := h
  simp only [length_append]
  omega

/-! ## Matches -/

/-- The empty match. -/
theorem Found.zero {moff : Nat} (hoff : moff ≤ src.length) (hdata : data ≤ trg.length) :
    Found src trg data moff 0 where
  src_le := hoff
  trg_le := hdata
  bytes := by simp
  msize_lt := by decide
  moff_lt := fun h => absurd rfl h

/-- `matchLen` counts equal bytes, at most as many as it was allowed to look at. -/
theorem matchLen_spec (n : Nat) (ref src : Bytes) :
    matchLen n ref src ≤ n ∧ matchLen n ref src ≤ ref.length ∧ matchLen n ref src ≤ src.length ∧
      ref.take (matchLen n ref src) = src.take (matchLen n ref src) := by
  fun_induction matchLen n ref src with
  | case1 n r ref src ih => simp [ih]
  | case2 | case3 => simp

/-- The search through a bucket returns a match if it was entered with one. -/
theorem findMatch_found (val : UInt32) (entries : List IndexEntry)
    (hentries : ∀ e ∈ entries, e.Within src.length) {msize moff : Nat}
    (h : Found src trg data moff msize) :
    Found src trg data (findMatch src trg data val entries msize moff).2
      (findMatch src trg data val entries msize moff).1 := by
  induction entries generalizing msize moff with
  | nil => exact h
  | cons entry entries ih =>
    have ih' := fun {msize moff : Nat} => @ih (forall_mem_cons.mp hentries).2 msize moff
    obtain ⟨hptr, hptr32⟩ := hentries entry mem_cons_self
    obtain ⟨hle, hsrc, htrg, hbytes⟩ := matchLen_spec
      (min ((src.length - entry.ptr) % 2 ^ 32) (trg.length - data)) (src.drop entry.ptr) (trg.drop data)
    have hdata := h.trg_le
    -- the candidate at this entry
    have hnew : Found src trg data entry.ptr (matchLen
        (min ((src.length - entry.ptr) % 2 ^ 32) (trg.length - data)) (src.drop entry.ptr) (trg.drop data)) :=
      ⟨⟨by omega, by omega, hbytes⟩, by omega, fun _ => hptr32⟩
    rw [findMatch]
    dsimp only
    split
    · exact ih' h
    split
    · exact h
    split
    · split
      · exact hnew
      · exact ih' hnew
    · exact ih' h

section

variable {data moff msize : Nat} (h : Matches src trg data moff msize)

include h

/-- One byte further back. -/
theorem Matches.back (hoff : moff ≠ 0) (hdata : 1 ≤ data)
    (heq : src.getD (moff - 1) 0 = trg.getD (data - 1) 0) :
    Matches src trg (data - 1) (moff - 1) (msize + 1) where
  src_le := by have := h.src_le; omega
  trg_le := by have := h.trg_le; omega
  bytes := by
    have hs : moff - 1 < src.length := by have := h.src_le; omega
    have ht : data - 1 < trg.length := by have := h.trg_le; omega
    rw [drop_eq_getElem_cons hs, drop_eq_getElem_cons ht, take_succ_cons,
      take_succ_cons, show moff - 1 + 1 = moff by omega, show data - 1 + 1 = data by omega, h.bytes]
    simpa [getD_eq_getElem?_getD, hs, ht] using heq

/-- The front of a match. -/
theorem Matches.take (hsize : size ≤ msize) : Matches src trg data moff size where
  src_le := by have := h.src_le; omega
  trg_le := by have := h.trg_le; omega
  bytes := by
    have := congrArg (List.take size) h.bytes
    simpa [take_take, hsize] using this

/-- What is left of a match behind its front. -/
theorem Matches.rest
    (hsize : size ≤ msize) : Matches src trg (data + size) (moff + size) (msize - size) where
  src_le := by have := h.src_le; omega
  trg_le := by have := h.trg_le; omega
  bytes := by
    have := congrArg (List.drop size) h.bytes
    simpa [drop_take, drop_drop] using this

end

/-! ## The branches of a round -/

variable {index : DeltaIndex} {s : DeltaState}

/-- The search keeps the invariant and does not touch output or position. -/
theorem searchStep_inv (hindex : AllEntries (IndexEntry.Within index.src.length) index.hash)
    (h : DeltaInv index.src trg s) :
    DeltaInv index.src trg (searchStep index trg s) ∧ (searchStep index trg s).data = s.data := by
  unfold searchStep
  split
  · exact ⟨⟨h.encoded, h.inscnt_lt, findMatch_found _ _ (hindex.getD _) h.found, h.long⟩, rfl⟩
  · exact ⟨h, rfl⟩

/-- The literal branch. -/
theorem literalStep_inv (h : DeltaInv src trg s) (hdata : s.data < trg.length) :
    DeltaInv src trg (literalStep trg s) ∧ s.data < (literalStep trg s).data := by
  have henc := h.encoded.literal hdata
  have hzero : Found src trg (s.data + 1) s.moff 0 :=
    Found.zero (by have := h.found.src_le; omega) hdata
  have hlong : deltaSizeMin ≤ ((if s.inscnt = 0 then s.out ++ [0] else s.out)
      ++ [trg.getD s.data 0]).length := by
    have := h.long
    split <;> simp only [length_append, length_singleton] <;> omega
  have hlt := h.inscnt_lt
  unfold literalStep
  dsimp only
  split
  · rename_i hfull
    refine ⟨⟨henc.flush (by omega) (by omega), by norm_num, hzero, ?_⟩, Nat.lt_succ_self _⟩
    rw [length_patchCount]
    exact hlong
  · exact ⟨⟨henc, by dsimp only; omega, hzero, hlong⟩, Nat.lt_succ_self _⟩

/-- The backward extension: literals move from the pending run into the match. -/
theorem extendBackwards_inv (fuel : Nat) (s : DeltaState) (hfuel : s.inscnt = fuel)
    (henc : Encoded src trg s.out s.inscnt s.data) (hm : Matches src trg s.data s.moff s.msize) :
    let s' := extendBackwards src trg fuel s
    Encoded src trg s'.out s'.inscnt s'.data ∧ Matches src trg s'.data s'.moff s'.msize ∧
      s'.moff ≤ s.moff ∧ s.msize ≤ s'.msize ∧ s'.msize + s'.inscnt = s.msize + s.inscnt ∧
      s'.data + s'.msize = s.data + s.msize := by
  induction fuel generalizing s with
  | zero => exact ⟨henc, hm, le_rfl, le_rfl, rfl, rfl⟩
  | succ fuel ih =>
    rw [hfuel] at henc
    obtain ⟨hdata, henc'⟩ := henc.unliteral (by have := hm.trg_le; omega)
    rw [extendBackwards]
    split
    · rename_i hback
      have hm' := hm.back hback.1 hdata hback.2
      dsimp only
      split
      · rename_i hne
        rw [hfuel, Nat.add_sub_cancel] at hne
        rw [if_neg hne] at henc'
        obtain ⟨h1, h2, h3, h4, h5, h6⟩ := ih
          { s with msize := s.msize + 1, moff := s.moff - 1, data := s.data - 1
                   out := s.out.dropLast, inscnt := s.inscnt - 1 }
          (by simp [hfuel]) (by simpa [hfuel] using henc') hm'
        dsimp only at h3 h4 h5 h6
        exact ⟨h1, h2, by omega, by omega, by omega, by omega⟩
      grind
    · exact ⟨by simpa [hfuel] using henc, hm, le_rfl, le_rfl, rfl, rfl⟩

/-- Closing the pending run in front of a copy. -/
theorem closeRun_inv (h : DeltaInv src trg s) :
    let s' := closeRun src trg s
    Encoded src trg s'.out 0 s'.data ∧ s'.inscnt = 0 ∧ Matches src trg s'.data s'.moff s'.msize ∧
      s'.moff ≤ s.moff ∧ s.msize ≤ s'.msize ∧ s'.msize < s.msize + 0x7f ∧
      s'.data + s'.msize = s.data + s.msize := by
  have hlt := h.inscnt_lt
  unfold closeRun
  split
  · rename_i h0
    exact ⟨by simpa [h0] using h.encoded, h0, h.found.toMatches, le_rfl, le_rfl, by omega, rfl⟩
  obtain ⟨h1, h2, h3, h4, h5, h6⟩ := extendBackwards_inv s.inscnt s rfl h.encoded h.found.toMatches
  dsimp only
  split
  · grind
  · rename_i hne
    exact ⟨h1.flush hne (by omega), rfl, h2, h3, h4, by dsimp only; omega, h6⟩

/-- A copy opcode takes at least two bytes, except for 64 KiB from offset zero. -/
theorem two_le_copyOp_length {moff : Nat} (hpos : 0 < size) (hsize : size < 0x10000) :
    2 ≤ (copyOp moff size).length := by
  have hne : byteAt size 0 ≠ 0 ∨ byteAt size 1 ≠ 0 := by
    by_contra hz
    rw [not_or, not_not, not_not] at hz
    have h := or_byteAt_two (n := size) (by omega)
    rw [hz.1, hz.2] at h
    simp at h
    omega
  have hone : ∀ b : UInt8, b ≠ 0 → (cpByte b).length = 1 := fun b hb => by simp [cpByte, hb]
  simp only [copyOp, length_cons, length_append]
  rcases hne with hb | hb <;> have := hone _ hb <;> omega

/-- The copy branch. -/
theorem copyStep_inv (h : DeltaInv src trg s) (hmin : 4 ≤ s.msize) :
    DeltaInv src trg (copyStep src trg s) ∧ s.data < (copyStep src trg s).data := by
  obtain ⟨henc, hins, hm, hoff, hge, hlt, hend⟩ := closeRun_inv h
  have hmsize := h.found.msize_lt
  have hoff32 := h.found.moff_lt (by omega)
  unfold copyStep
  dsimp only
  generalize closeRun src trg s = s' at henc hins hm hoff hge hlt hend
  -- the 32-bit `left` does not lose bits, so that one opcode copies at most 64 KiB
  have hleft : leftOver s'.msize = s'.msize - (s'.msize - leftOver s'.msize)
      ∧ 4 ≤ s'.msize - leftOver s'.msize ∧ s'.msize - leftOver s'.msize ≤ 0x10000
      ∧ (s'.msize - leftOver s'.msize = 0x10000 ∨ leftOver s'.msize = 0)
      ∧ leftOver s'.msize < 2 ^ 32 := by
    unfold leftOver
    split <;> omega
  generalize leftOver s'.msize = left at hleft
  obtain ⟨hrest, hsize4, hsize, hcases, hleft32⟩ := hleft
  have hlen := henc.headers_le
  refine ⟨⟨?_, by simp [hins], ?_, ?_⟩, by omega⟩
  · rw [hins]
    exact henc.copy (hm.take (by omega)) (by omega) (by omega) hsize
  · have hm' := hm.rest (show s'.msize - left ≤ s'.msize by omega)
    rw [← hrest] at hm'
    split
    · exact Found.zero (Nat.le_of_add_right_le hm'.src_le) (Nat.le_of_add_right_le hm'.trg_le)
    · exact ⟨hm', hleft32, fun _ => by dsimp only; omega⟩
  rw [length_append]
  rw [headers, length_append] at hlen
  have h1 := hdrSize_length src.length
  have h2 := hdrSize_length trg.length
  have h3 := hm.src_le
  have h4 := hm.trg_le
  unfold deltaSizeMin
  by_cases hbig : s'.msize - left = 0x10000
  · have := h1.2 (by omega)
    omega
  · have : 2 ≤ (copyOp s'.moff (s'.msize - left)).length :=
      two_le_copyOp_length (by omega) (by omega)
    omega

/-- One round of the main loop keeps the invariant and consumes target bytes. -/
theorem emitStep_inv (hindex : AllEntries (IndexEntry.Within index.src.length) index.hash)
    (h : DeltaInv index.src trg s) (hdata : s.data < trg.length) :
    DeltaInv index.src trg (emitStep index trg s) ∧ s.data < (emitStep index trg s).data := by
  obtain ⟨h', hpos⟩ := searchStep_inv hindex h
  unfold emitStep
  dsimp only
  rw [← hpos] at hdata ⊢
  split
  · exact literalStep_inv h' hdata
  · exact copyStep_inv h' (by omega)

/-! ## The main loop -/

/-- The main loop ends with the whole target encoded, or with a delta that has outgrown a
non-zero `max_size`. -/
theorem deltaLoop_inv (maxSize : Nat)
    (hindex : AllEntries (IndexEntry.Within index.src.length) index.hash) (fuel : Nat)
    (s : DeltaState) (hfuel : trg.length - s.data ≤ fuel) (h : DeltaInv index.src trg s) :
    let s' := deltaLoop index trg maxSize fuel s
    DeltaInv index.src trg s' ∧
      (s'.data = trg.length ∨ maxSize ≠ 0 ∧ maxSize < s'.out.length) := by
  have hdone : ∀ s : DeltaState, DeltaInv index.src trg s → ¬ s.data < trg.length →
      s.data = trg.length := fun s h hd => by have := h.found.trg_le; omega
  induction fuel generalizing s with
  | zero => exact ⟨h, .inl (hdone s h (by omega))⟩
  | succ fuel ih =>
    rw [deltaLoop]
    split
    · rename_i hdata
      obtain ⟨h', hpos⟩ := emitStep_inv hindex h hdata
      dsimp only
      split
      · have h'' : DeltaInv index.src trg
            { emitStep index trg s with outsize := growSize maxSize (emitStep index trg s).outsize } :=
          ⟨h'.encoded, h'.inscnt_lt, h'.found, h'.long⟩
        split
        · rename_i hmax
          exact ⟨h'', .inr hmax⟩
        · exact ih _ (by dsimp only; omega) h''
      · exact ih _ (by omega) h'
    grind

/-- The state in front of the main loop. -/
theorem deltaInit_inv (maxSize : Nat) (hne : trg ≠ []) :
    DeltaInv index.src trg (deltaInit index trg maxSize) := by
  have hpos : 0 < trg.length := length_pos_iff.mpr hne
  have hwin : (trg.take rabinWindow).length = min rabinWindow trg.length := length_take
  have h1 := (hdrSize_length index.src.length).1
  have h2 := (hdrSize_length trg.length).1
  refine ⟨⟨[], [], trg.take rabinWindow, 0, ?_, .nil, rfl, ?_⟩, ?_, ?_, ?_⟩
  · unfold deltaInit
    dsimp only
    rw [if_neg (by unfold rabinWindow at *; omega), headers, append_nil]
  · unfold deltaInit
    simp
  · unfold deltaInit rabinWindow at *
    dsimp only
    omega
  · exact Found.zero (Nat.zero_le _) (by unfold deltaInit; dsimp only; omega)
  · unfold deltaInit deltaSizeMin rabinWindow at *
    simp only [length_append, length_cons]
    omega

/-- **Delta round trip.** For every source and every target, if `create_delta` on the index of
the source returns a delta, then `patch_delta` applied to the source and that delta returns the
target. -/
theorem patchDelta_createDelta (src trg : Bytes) (maxSize : Nat) (index : DeltaIndex) (d : Bytes)
    (hsrc : src.length < 2 ^ 64) (htrg : trg.length < 2 ^ 64)
    (hindex : createDeltaIndex src = some index) (hd : createDelta index trg maxSize = some d) :
    patchDelta src d = .ok trg := by
  obtain ⟨rfl, hentries⟩ := createDeltaIndex_ptr_bound hindex
  unfold createDelta at hd
  split at hd
  · cases hd
  rename_i hne
  obtain ⟨hinv, hend⟩ := deltaLoop_inv maxSize hentries trg.length
    (deltaInit index trg maxSize) (by omega) (deltaInit_inv maxSize hne)
  dsimp only at hd hinv hend
  generalize deltaLoop index trg maxSize trg.length (deltaInit index trg maxSize) = s at hd hinv hend
  have hlt := hinv.inscnt_lt
  -- the count of a run still pending at the end is filled in behind the loop
  have hflush : Encoded index.src trg
      (if s.inscnt = 0 then s.out else patchCount s.out s.inscnt) 0 s.data := by
    split
    · rename_i h0
      simpa [h0] using hinv.encoded
    · rename_i h0
      exact hinv.encoded.flush h0 (by omega)
  have hlen : (if s.inscnt = 0 then s.out else patchCount s.out s.inscnt).length
      = s.out.length := by split <;> simp
  rw [hlen] at hd
  split at hd
  · cases hd
  rename_i hmax
  cases hd
  have hall : s.data = trg.length := hend.resolve_right hmax
  rw [hall] at hflush
  exact hflush.patchDelta hsrc htrg (by rw [hlen]; exact hinv.long)

/-- The round trip on a target that shares 37 bytes with its source. The delta inserts two bytes,
copies with a size and a one-byte offset, and ends with a run of one literal. -/
theorem patchDelta_createDelta_shared :
    let src : Bytes := (List.range 40).map fun i => UInt8.ofNat (7 * i)
    let trg : Bytes := 1 :: 2 :: src.drop 3 ++ [5]
    let d : Bytes := [40, 40, 2, 1, 2, 145, 3, 37, 1, 5]
    (createDeltaIndex src).bind (createDelta · trg 0) = some d ∧ patchDelta src d = .ok trg := by
  intro src trg d
  have h : (createDeltaIndex src).bind (createDelta · trg 0) = some d := by decide +kernel
  obtain ⟨index, hindex, hd⟩ := Option.bind_eq_some_iff.mp h
  exact ⟨h, patchDelta_createDelta src trg 0 index d (by decide) (by decide) hindex hd⟩

/-- Without a size limit the encoder always returns a delta of a non-empty target. -/
theorem createDelta_isSome (index : DeltaIndex) (hne : trg ≠ []) :
    (createDelta index trg 0).isSome := by
  simp [createDelta, hne]

end GitCore.Delta
