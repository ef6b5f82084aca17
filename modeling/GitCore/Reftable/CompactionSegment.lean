import Mathlib.Data.List.Chain
import Mathlib.Data.List.GetD
import Mathlib.Algebra.Order.BigOperators.Group.List
import Mathlib.Algebra.Order.Ring.Nat

/-! # The segment that auto-compaction merges

The sizes of the tables of a stack shall fall geometrically. Where they do not,
`suggest_compaction_segment` names the tables to merge: its **end** is the topmost violation, and
its **start** the lowest table that is too small for everything above it up to the end. The merged
table then fits between its neighbours. -/

namespace GitCore.Reftable

open Nat List

/-! ## The code -/

/-- `struct segment` -/
structure Segment where
  start : Nat
  stop : Nat
  bytes : UInt64
deriving DecidableEq, Repr

/-- `segment_size` -/
def segmentSize (s : Segment) : Nat := s.stop - s.start

/-- `DEFAULT_GEOMETRIC_FACTOR` -/
def defaultGeometricFactor : UInt8 := 2

/-- The factor in use: zero stands for the default. -/
def geometricFactor (factor : UInt8) : UInt8 :=
  if factor = 0 then defaultGeometricFactor else factor

/-- The loop for the end of the segment, from position `i` downwards: where it breaks, zero if it
runs through. -/
def segmentEndLoop (sizes : List UInt64) (factor : UInt64) : Nat → Nat
  | 0 => 0
  | i + 1 =>
    if sizes.getD i 0 < sizes.getD (i + 1) 0 * factor then i + 1
    else segmentEndLoop sizes factor i

/-- The loop for the start of the segment. It goes on below a hit, since a table further down may be
too small as well. -/
def segmentStartLoop (sizes : List UInt64) (factor : UInt64) : Nat → UInt64 → Segment → Segment
  | 0, _, seg => seg
  | i + 1, curr, seg =>
    let bytes := curr + sizes.getD i 0
    segmentStartLoop sizes factor i bytes
      (if sizes.getD i 0 < curr * factor then ⟨i, seg.stop, bytes⟩ else seg)

/-- `suggest_compaction_segment` -/
def suggestCompactionSegment (sizes : List UInt64) (factor : UInt8) : Segment :=
  let factor := (geometricFactor factor).toUInt64
  if sizes.length ≤ 1 then ⟨0, 0, 0⟩
  else
    let i := segmentEndLoop sizes factor (sizes.length - 1)
    if i = 0 then ⟨0, 0, 0⟩
    else segmentStartLoop sizes factor i (sizes.getD i 0) ⟨0, i + 1, 0⟩

/-! ## Geometric sequences -/

/-- Each number is at least `factor` times the next one. -/
def Geometric (factor : Nat) (l : List Nat) : Prop := l.IsChain fun a b => factor * b ≤ a

/-- The sum of the numbers from `start` up to `stop`. -/
def segmentSum (l : List Nat) (start stop : Nat) : Nat := ((l.take stop).drop start).sum

/-- The sequence with the numbers from `start` up to `stop` replaced by their sum. -/
def mergeSegment (l : List Nat) (start stop : Nat) : List Nat :=
  l.take start ++ segmentSum l start stop :: l.drop stop

section Geometric

variable {factor start stop : Nat} {l : List Nat}

theorem geometric_iff :
    Geometric factor l ↔ ∀ j, j + 1 < l.length → factor * l.getD (j + 1) 0 ≤ l.getD j 0 := by
  rw [Geometric, isChain_iff_getElem]
  grind

theorem segmentSum_step (h : start < stop) (hstop : stop ≤ l.length) :
    segmentSum l start stop = l.getD start 0 + segmentSum l (start + 1) stop := by
  have hlt : start < (l.take stop).length := by rw [length_take]; omega
  rw [segmentSum, drop_eq_getElem_cons hlt, sum_cons, getElem_take, getD_eq_getElem]
  rfl

theorem segmentSum_self : segmentSum l stop stop = 0 := by
  rw [segmentSum, drop_eq_nil_of_le (length_take_le _ _), sum_nil]

theorem segmentSum_succ (h : stop < l.length) : segmentSum l stop (stop + 1) = l.getD stop 0 := by
  rw [segmentSum_step (lt_succ_self stop) h, segmentSum_self, add_zero]

theorem segmentSum_le_sum : segmentSum l start stop ≤ l.sum :=
  ((drop_sublist _ _).trans (take_sublist _ _)).sum_le_sum fun _ _ => zero_le _

/-- A member of the segment is at most its sum. -/
theorem getD_le_segmentSum {j : Nat} (hstart : start ≤ j) (hj : j < stop) (hstop : stop ≤ l.length) :
    l.getD j 0 ≤ segmentSum l start stop := by
  induction hstart using Nat.decreasingInduction with
  | self => rw [segmentSum_step hj hstop]; exact le_add_right _ _
  | of_succ k hk ih => rw [segmentSum_step (hk.trans hj) hstop]; exact ih.trans (le_add_left _ _)

/-- **Merging a segment restores the sequence**, when it is geometric from the last member of the
segment on and every number before the segment is at least `factor` times the sum of all that follow
it up to the end of the segment. -/
theorem geometric_mergeSegment (hlt : start < stop) (hstop : stop ≤ l.length)
    (hbehind : ∀ j, stop ≤ j + 1 → j + 1 < l.length → factor * l.getD (j + 1) 0 ≤ l.getD j 0)
    (hbefore : ∀ j < start, factor * segmentSum l (j + 1) stop ≤ l.getD j 0) :
    Geometric factor (mergeSegment l start stop) := by
  refine isChain_append.mpr ⟨?_, isChain_cons.mpr ⟨?_, ?_⟩, ?_⟩
  · -- before the segment the next number is one of those summed up
    refine geometric_iff.mpr fun j hj => ?_
    have hj : j + 1 < start := by rw [length_take] at hj; omega
    rw [getD_eq_getElem?_getD, getElem?_take_of_lt hj, getD_eq_getElem?_getD,
      getElem?_take_of_lt (lt_of_succ_lt hj), ← getD_eq_getElem?_getD, ← getD_eq_getElem?_getD]
    calc factor * l.getD (j + 1) 0
        ≤ factor * segmentSum l (j + 1) stop :=
          mul_le_mul_left _ (getD_le_segmentSum le_rfl (hj.trans hlt) hstop)
      _ ≤ l.getD j 0 := hbefore j (lt_of_succ_lt hj)
  · -- the number behind the segment fits its last member, hence the sum
    intro y hy
    rw [head?_drop, Option.mem_def, getElem?_eq_some_iff] at hy
    obtain ⟨hlen, rfl⟩ := hy
    obtain ⟨j, rfl⟩ : ∃ j, stop = j + 1 := ⟨stop - 1, by omega⟩
    calc factor * l[j + 1] = factor * l.getD (j + 1) 0 := by rw [getD_eq_getElem]
      _ ≤ l.getD j 0 := hbehind j le_rfl hlen
      _ ≤ segmentSum l start (j + 1) :=
          getD_le_segmentSum (le_of_lt_succ hlt) (lt_succ_self j) hstop
  · refine geometric_iff.mpr fun j hj => ?_
    grind
  · -- the number before the segment is large enough for the sum
    intro x hx y hy
    rw [head?_cons, Option.mem_def, Option.some.injEq] at hy
    subst hy
    rw [Option.mem_def, getLast?_eq_getElem?, getElem?_eq_some_iff] at hx
    obtain ⟨hlen, rfl⟩ := hx
    have hlength : (l.take start).length = start := by rw [length_take]; omega
    obtain ⟨j, rfl⟩ : ∃ j, start = j + 1 := ⟨start - 1, by omega⟩
    have hbefore := hbefore j (lt_succ_self j)
    rw [getD_eq_getElem _ _ (by omega)] at hbefore
    simpa only [hlength, Nat.add_sub_cancel, getElem_take] using hbefore

end Geometric

/-! ## The two loops -/

section Loops

variable {sizes : List UInt64} {factor : UInt64}

/-- The sizes as numbers. -/
def sizeNats (sizes : List UInt64) : List Nat := sizes.map UInt64.toNat

theorem getD_sizeNats (i : Nat) : (sizeNats sizes).getD i 0 = (sizes.getD i 0).toNat := by
  rw [sizeNats, show (0 : Nat) = (0 : UInt64).toNat from rfl, getD_map]

/-- What the loop for the start leaves: a segment of which every number below is large enough. -/
structure StartFound (factor : Nat) (l : List Nat) (stop bound : Nat) (seg : Segment) : Prop where
  start_lt : seg.start < bound
  stop_eq : seg.stop = stop
  bytes_eq : seg.bytes.toNat = segmentSum l seg.start stop
  below : ∀ j < seg.start, factor * segmentSum l (j + 1) stop ≤ l.getD j 0

section

variable (hsum : factor.toNat * (sizeNats sizes).sum < 2 ^ 64)
include hsum

/-- A product that is compared in the loops does not wrap. -/
theorem lt_mul_iff_of_le_sum {a b : UInt64} (hb : b.toNat ≤ (sizeNats sizes).sum) :
    a < b * factor ↔ a.toNat < factor.toNat * b.toNat := by
  have hlt : b.toNat * factor.toNat < 2 ^ 64 := by
    rw [mul_comm]
    exact (mul_le_mul_left _ hb).trans_lt hsum
  rw [UInt64.lt_iff_toNat_lt, UInt64.toNat_mul, mod_eq_of_lt hlt, mul_comm]

/-- The loop for the end stops at the topmost violation. -/
theorem segmentEndLoop_spec (n : Nat) (hn : n < sizes.length) :
    segmentEndLoop sizes factor n ≤ n ∧
      (∀ j, segmentEndLoop sizes factor n ≤ j → j < n →
        factor.toNat * (sizeNats sizes).getD (j + 1) 0 ≤ (sizeNats sizes).getD j 0) ∧
      ∀ i, segmentEndLoop sizes factor n = i + 1 →
        (sizeNats sizes).getD i 0 < factor.toNat * (sizeNats sizes).getD (i + 1) 0 := by
  have hcompare (i : Nat) (hi : i + 1 < sizes.length) :
      sizes.getD i 0 < sizes.getD (i + 1) 0 * factor ↔
        (sizeNats sizes).getD i 0 < factor.toNat * (sizeNats sizes).getD (i + 1) 0 := by
    rw [getD_sizeNats, getD_sizeNats, lt_mul_iff_of_le_sum hsum]
    rw [← getD_sizeNats]
    have hlen : i + 1 < (sizeNats sizes).length := by rw [sizeNats, length_map]; exact hi
    rw [← segmentSum_succ hlen]
    exact segmentSum_le_sum
  induction n with
  | zero => exact ⟨le_rfl, fun j _ hj => absurd hj (not_lt_zero j), fun i hi => nomatch hi⟩
  | succ n ih =>
    rw [segmentEndLoop]
    split
    · grind
    · rename_i h
      obtain ⟨hle, hbehind, hhit⟩ := ih (lt_of_succ_lt hn)
      refine ⟨hle.trans (Nat.le_succ n), fun j hj hlt => ?_, hhit⟩
      rcases Nat.lt_succ_iff_lt_or_eq.mp hlt with hlt | rfl
      · exact hbehind j hj hlt
      · exact not_lt.mp fun hlt => h ((hcompare j hn).mpr hlt)

/-- The loop for the start, entered at `i` with the sum of all from `i` to the end. The segment it
was given survives only if nothing below `i` is too small. -/
theorem segmentStartLoop_spec (hfits : (sizeNats sizes).sum < 2 ^ 64) {stop : Nat}
    (hstop : stop ≤ sizes.length) (i : Nat) (hi : i < stop) (curr : UInt64) (hcurr : curr.toNat = segmentSum (sizeNats sizes) i stop)
    (seg : Segment) (hseg : seg.stop = stop) :
    StartFound factor.toNat (sizeNats sizes) stop i (segmentStartLoop sizes factor i curr seg) ∨
      segmentStartLoop sizes factor i curr seg = seg ∧
        ∀ j < i, factor.toNat * segmentSum (sizeNats sizes) (j + 1) stop ≤
          (sizeNats sizes).getD j 0 := by
  induction i generalizing curr seg with
  | zero => exact .inr ⟨rfl, fun j hj => absurd hj (not_lt_zero j)⟩
  | succ i ih =>
    have hlength : stop ≤ (sizeNats sizes).length := by rwa [sizeNats, length_map]
    have hstep := segmentSum_step (lt_of_succ_lt hi) hlength
    have hbytes : (curr + sizes.getD i 0).toNat = segmentSum (sizeNats sizes) i stop := by
      rw [UInt64.toNat_add, hcurr, ← getD_sizeNats, add_comm, ← hstep]
      exact mod_eq_of_lt (segmentSum_le_sum.trans_lt hfits)
    have hcompare : sizes.getD i 0 < curr * factor ↔
        (sizeNats sizes).getD i 0 < factor.toNat * segmentSum (sizeNats sizes) (i + 1) stop := by
      rw [lt_mul_iff_of_le_sum hsum (hcurr ▸ segmentSum_le_sum), getD_sizeNats, hcurr]
    rw [segmentStartLoop]
    split
    · rename_i h
      rcases ih (lt_of_succ_lt hi) _ hbytes ⟨i, seg.stop, _⟩ hseg with hfound | ⟨heq, hbelow⟩
      · exact .inl { hfound with start_lt := hfound.start_lt.trans (lt_succ_self i) }
      -- nothing further down is too small: this hit stands
      refine .inl ?_
      rw [heq]
      exact ⟨lt_succ_self i, hseg, hbytes, hbelow⟩
    · rename_i h
      rcases ih (lt_of_succ_lt hi) _ hbytes seg hseg with hfound | ⟨heq, hbelow⟩
      · exact .inl { hfound with start_lt := hfound.start_lt.trans (lt_succ_self i) }
      grind

end

end Loops

/-! ## The segment -/

theorem one_le_geometricFactor (factor : UInt8) : 1 ≤ (geometricFactor factor).toNat := by
  rw [geometricFactor]
  split
  · decide
  · rename_i h
    exact one_le_iff_ne_zero.mpr fun h0 => h (UInt8.toNat_inj.mp h0)

/-- The two outcomes: no segment because nothing violates the sequence, or a segment that ends with
the topmost violation, at `i` and `i + 1`. -/
theorem suggestCompactionSegment_cases {sizes : List UInt64} {factor : UInt8}
    (hsum : (geometricFactor factor).toNat * (sizeNats sizes).sum < 2 ^ 64) :
    suggestCompactionSegment sizes factor = ⟨0, 0, 0⟩ ∧
        Geometric (geometricFactor factor).toNat (sizeNats sizes) ∨
      ∃ i, i + 1 < sizes.length ∧
        (sizeNats sizes).getD i 0 <
          (geometricFactor factor).toNat * (sizeNats sizes).getD (i + 1) 0 ∧
        (∀ j, i + 1 ≤ j → j + 1 < sizes.length →
          (geometricFactor factor).toNat * (sizeNats sizes).getD (j + 1) 0 ≤
            (sizeNats sizes).getD j 0) ∧
        StartFound (geometricFactor factor).toNat (sizeNats sizes) (i + 2) (i + 1)
          (suggestCompactionSegment sizes factor) := by
  have hlength : (sizeNats sizes).length = sizes.length := length_map _
  have hfits : (sizeNats sizes).sum < 2 ^ 64 :=
    (Nat.le_mul_of_pos_left _ (one_le_geometricFactor factor)).trans_lt hsum
  simp only [suggestCompactionSegment]
  rw [← UInt8.toNat_toUInt64] at hsum
  rw [← UInt8.toNat_toUInt64]
  generalize (geometricFactor factor).toUInt64 = f at hsum ⊢
  by_cases hn : sizes.length ≤ 1
  · rw [if_pos hn]
    exact .inl ⟨rfl, geometric_iff.mpr fun j hj => absurd hj (by omega)⟩
  rw [if_neg hn]
  obtain ⟨hle, hbehind, hhit⟩ := segmentEndLoop_spec hsum (sizes.length - 1) (by omega)
  cases hend : segmentEndLoop sizes f (sizes.length - 1) with
  | zero =>
    refine .inl ⟨rfl, geometric_iff.mpr fun j hj => hbehind j ?_ (by omega)⟩
    rw [hend]
    exact zero_le j
  | succ i =>
    rw [hend] at hle hbehind
    have hlt : i + 1 < (sizeNats sizes).length := by omega
    refine .inr ⟨i, by omega, hhit i hend, fun j hj hlen => hbehind j hj (by omega), ?_⟩
    have hcurr : (sizes.getD (i + 1) 0).toNat = segmentSum (sizeNats sizes) (i + 1) (i + 2) := by
      rw [segmentSum_succ hlt, getD_sizeNats]
    refine (segmentStartLoop_spec hsum hfits (by omega) (i + 1) (lt_succ_self _) _ hcurr
      ⟨0, i + 2, 0⟩ rfl).resolve_right ?_
    -- the first comparison of the second loop is the one that ended the first
    rintro ⟨-, hbelow⟩
    have hbelow := hbelow i (lt_succ_self i)
    rw [segmentSum_succ hlt] at hbelow
    exact absurd (hhit i hend) (not_lt.mpr hbelow)

/-- **Auto-compaction restores the geometric sequence.** As long as `factor` times the sum of the
sizes fits in 64 bits, the suggested segment is empty exactly when the sizes are geometric already.
Otherwise it has at least two tables, `bytes` is the sum of their sizes, and with one table of that
size in their place the sizes are geometric. -/
theorem suggestCompactionSegment_restores (sizes : List UInt64) (factor : UInt8)
    (hsum : (geometricFactor factor).toNat * (sizeNats sizes).sum < 2 ^ 64) :
    let seg := suggestCompactionSegment sizes factor
    (segmentSize seg = 0 ↔ Geometric (geometricFactor factor).toNat (sizeNats sizes)) ∧
      (segmentSize seg ≠ 0 →
        seg.start < seg.stop ∧ seg.stop ≤ sizes.length ∧ 2 ≤ segmentSize seg ∧
          seg.bytes.toNat = segmentSum (sizeNats sizes) seg.start seg.stop ∧
          Geometric (geometricFactor factor).toNat
            (mergeSegment (sizeNats sizes) seg.start seg.stop)) := by
  intro seg
  rcases suggestCompactionSegment_cases hsum with ⟨heq, hgeometric⟩ | ⟨i, hi, hhit, hbehind, hfound⟩
  · have hsize : segmentSize seg = 0 := congrArg segmentSize heq
    exact ⟨iff_of_true hsize hgeometric, fun h => absurd hsize h⟩
  have hlength : (sizeNats sizes).length = sizes.length := length_map _
  have hstart : seg.start < i + 1 := hfound.start_lt
  have hstop : seg.stop = i + 2 := hfound.stop_eq
  have hsize : 2 ≤ segmentSize seg := by rw [segmentSize]; omega
  refine ⟨iff_of_false (by omega) fun hgeometric => ?_, fun _ =>
    ⟨by omega, by omega, hsize, ?_, ?_⟩⟩
  · exact absurd hhit (not_lt.mpr (geometric_iff.mp hgeometric i (by omega)))
  · rw [hstop]
    exact hfound.bytes_eq
  · rw [hstop]
    exact geometric_mergeSegment (by omega) (by omega)
      (fun j hj hlen => hbehind j (by omega) (by omega)) hfound.below

/-- The segment of ten tables of which only the first fits the sequence. -/
theorem suggestCompactionSegment_ten_tables :
    suggestCompactionSegment [512, 64, 17, 16, 9, 9, 9, 16, 2, 16] 2 = ⟨1, 10, 158⟩ ∧
      Geometric 2 (mergeSegment (sizeNats [512, 64, 17, 16, 9, 9, 9, 16, 2, 16]) 1 10) :=
  have h := suggestCompactionSegment_restores [512, 64, 17, 16, 9, 9, 9, 16, 2, 16] 2 (by decide)
  ⟨by decide, (h.2 (by decide)).2.2.2.2⟩

end GitCore.Reftable
