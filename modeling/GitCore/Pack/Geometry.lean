import GitCore.Lib.Stream
import Mathlib.Algebra.BigOperators.Intervals

/-! # Geometric repacking

`pack_geometry_split` looks for the packs that have to be rolled up into one, such that the numbers
of objects of the new pack and of the remaining ones form a geometric progression. A first scan from
the heaviest pack down finds how far the packs form a progression already; a second one goes up again
and takes in the packs that are too light for what has been rolled up so far. -/

namespace GitCore.Pack

open Nat

/-- The calls of `die` in `pack_geometry_split`, with the name of the pack. -/
inductive GeometryFailure where
  /-- "pack %s too large to consider in geometric progression" -/
  | tooLargeToConsider (packName : String)
  /-- "pack %s too large to roll up" -/
  | tooLargeToRollUp (packName : String)
deriving DecidableEq, Repr

/-- `struct pack_geometry`, where a pack is given by its name and the number of its objects. -/
structure PackGeometry where
  packNr : Nat
  packName : Nat → String
  /-- `pack_geometry_weight` -/
  weight : Nat → UInt32
  splitFactor : Nat
  packNr_lt : packNr < 2 ^ 32
  splitFactor_pos : 0 < splitFactor
  splitFactor_lt : splitFactor < 2 ^ 31

/-- `unsigned_add_overflows` for numbers of the given width. -/
def unsignedAddOverflows (bits a b : Nat) : Prop := 2 ^ bits - 1 - a < b

/-- `unsigned_mult_overflows` where the first factor has the given width. -/
def unsignedMultOverflows (bits a b : Nat) : Prop := a ≠ 0 ∧ (2 ^ bits - 1) / a < b

instance (bits a b : Nat) : Decidable (unsignedAddOverflows bits a b) :=
  inferInstanceAs (Decidable (_ < _))

instance (bits a b : Nat) : Decidable (unsignedMultOverflows bits a b) :=
  inferInstanceAs (Decidable (_ ∧ _))

namespace PackGeometry

variable (g : PackGeometry)

/-- The number of objects of a pack. -/
def count (i : Nat) : Nat := (g.weight i).toNat

/-- The first loop from the pack `i` down: the last pair of packs that is not part of the
progression. -/
def progressionStart : Nat → Except GeometryFailure Nat
  | 0 => .ok 0
  | i + 1 =>
    if unsignedMultOverflows 32 g.splitFactor (g.count i) then
      .error (.tooLargeToConsider (g.packName i))
    else if g.count (i + 1) < g.splitFactor * g.count i then .ok (i + 1)
    else progressionStart i

/-- The loop that computes the expected size of the new pack. -/
def totalSize : Nat → Except GeometryFailure Nat
  | 0 => .ok 0
  | i + 1 => do
    let total ← totalSize i
    if unsignedAddOverflows 64 total (g.count i) then .error (.tooLargeToRollUp (g.packName i))
    else .ok (total + g.count i)

/-- The last loop, with `rest` packs from `split` on: here `i` and `split` advance together. -/
def rollUp : (rest split total : Nat) → Except GeometryFailure Nat
  | 0, split, _ => .ok split
  | rest + 1, split, total =>
    if unsignedMultOverflows 32 g.splitFactor total then
      .error (.tooLargeToRollUp (g.packName split))
    else if g.count split < g.splitFactor * total then
      if unsignedAddOverflows 64 total (g.count split) then
        .error (.tooLargeToRollUp (g.packName split))
      else rollUp rest (split + 1) (total + g.count split)
    else .ok split

end PackGeometry

/-- `pack_geometry_split`: the value that `geometry->split` gets. -/
def packGeometrySplit (g : PackGeometry) : Except GeometryFailure Nat :=
  if g.packNr = 0 then .ok 0
  else do
    let i ← g.progressionStart (g.packNr - 1)
    let split := if i ≠ 0 then i + 1 else i
    let total ← g.totalSize split
    g.rollUp (g.packNr - split) split total

namespace PackGeometry

variable {g : PackGeometry}

/-- The pack `i + 1` is heavy enough for the pack in front of it. -/
def Progresses (g : PackGeometry) (i : Nat) : Prop := g.splitFactor * g.count i ≤ g.count (i + 1)

/-- **The first scan** stops at the last pair that is out of the progression, or at the start. -/
theorem progressionStart_spec {n i : Nat} (h : g.progressionStart n = .ok i) :
    i ≤ n ∧ (∀ j, i ≤ j → j < n → g.Progresses j) ∧ ∀ j, i = j + 1 → ¬ g.Progresses j := by
  fun_induction progressionStart g n with
  | case1 =>
    grind
  | case2 => cases h
  | case3 n _ hlt =>
    obtain rfl := Except.ok.inj h
    refine ⟨le_rfl, by omega, fun j hj => ?_⟩
    obtain rfl := Nat.succ.inj hj
    exact not_le.mpr hlt
  | case4 n _ hge ih =>
    obtain ⟨hle, hprogresses, hstart⟩ := ih h
    refine ⟨Nat.le_succ_of_le hle, fun j hij hj => ?_, hstart⟩
    rcases Nat.lt_succ_iff_lt_or_eq.mp hj with hj | rfl
    · exact hprogresses j hij hj
    · exact not_lt.mp hge

/-- The size of the new pack is the number of all objects in the packs that are rolled up. -/
theorem totalSize_eq {n total : Nat} (h : g.totalSize n = .ok total) :
    total = ∑ i ∈ Finset.range n, g.count i := by
  induction n generalizing total with
  | zero => exact (Except.ok.inj h).symm
  | succ n ih =>
    rw [totalSize] at h
    obtain ⟨t, hn, h⟩ := exists_of_bind_eq_ok h
    split at h
    · cases h
    · rw [Finset.sum_range_succ, ← ih hn]
      exact (Except.ok.inj h).symm

/-- **The last scan** stops at a pack that is heavy enough for all packs in front of it. -/
theorem rollUp_spec {rest split total s : Nat} (h : g.rollUp rest split total = .ok s)
    (htotal : total = ∑ i ∈ Finset.range split, g.count i) :
    split ≤ s ∧ (s < split + rest →
      g.splitFactor * ∑ i ∈ Finset.range s, g.count i ≤ g.count s) := by
  fun_induction rollUp g rest split total with
  | case1 =>
    grind
  | case2 | case3 => cases h
  | case4 rest split total _ _ _ ih =>
    rw [Finset.sum_range_succ, ← htotal] at ih
    obtain ⟨hle, hheavy⟩ := ih h rfl
    exact ⟨by omega, fun hs => hheavy (by omega)⟩
  | case5 rest split total _ hge =>
    grind

/-- Nothing is added to an empty roll-up. -/
theorem rollUp_zero (rest : Nat) : g.rollUp rest 0 0 = .ok 0 := by
  cases rest with
  | zero => rfl
  | succ rest => simp [rollUp, unsignedMultOverflows]

end PackGeometry

open PackGeometry

/-- **`pack_geometry_split` restores the progression.** If it does not die, nothing is rolled up
exactly if the packs are in a geometric progression already, it is never a single pack, and the packs
behind the split form a progression that starts with what the roll-up has in all. -/
theorem packGeometrySplit_restores (g : PackGeometry) {split : Nat}
    (h : packGeometrySplit g = .ok split) :
    (split = 0 ↔ ∀ i, i + 1 < g.packNr → g.splitFactor * g.count i ≤ g.count (i + 1)) ∧
      split ≠ 1 ∧
      (∀ i, split < i → i < g.packNr → g.splitFactor * g.count (i - 1) ≤ g.count i) ∧
      (split < g.packNr →
        g.splitFactor * ∑ i ∈ Finset.range split, g.count i ≤ g.count split) := by
  unfold packGeometrySplit at h
  by_cases hzero : g.packNr = 0
  · grind
  rw [if_neg hzero] at h
  obtain ⟨i, hstart, h⟩ := exists_of_bind_eq_ok h
  obtain ⟨hle, hprogresses, hnot⟩ := progressionStart_spec hstart
  cases i with
  | zero =>
    -- the packs are in a progression already
    obtain rfl : split = 0 := (Except.ok.inj ((rollUp_zero _).symm.trans h)).symm
    refine ⟨⟨fun _ j hj => hprogresses j (zero_le j) (by omega), fun _ => rfl⟩,
      zero_ne_one, fun j hj hlt => ?_, fun _ => ?_⟩
    · obtain ⟨j, rfl⟩ := exists_eq_succ_of_ne_zero hj.ne'
      exact hprogresses j (zero_le j) (by omega)
    simp
  | succ i =>
    obtain ⟨total, htotal, h⟩ := exists_of_bind_eq_ok h
    obtain ⟨hsplit, hheavy⟩ := rollUp_spec h (totalSize_eq htotal)
    rw [if_pos (succ_ne_zero i)] at hsplit hheavy
    refine ⟨⟨fun hzero => by omega, fun hall => ?_⟩, by omega, fun j hj hlt => ?_,
      fun hlt => hheavy (by omega)⟩
    · exact absurd (hall i (by omega)) (hnot i rfl)
    · obtain ⟨j, rfl⟩ := exists_eq_succ_of_ne_zero (ne_zero_of_lt hj)
      exact hprogresses j (by omega) (by omega)

/-- Four packs, of which the first three have to be rolled up. -/
def fourPacks : PackGeometry where
  packNr := 4
  packName := fun _ => ""
  weight := fun i => [1, 1, 3, 20].getD i 0
  splitFactor := 2
  packNr_lt := by decide
  splitFactor_pos := by decide
  splitFactor_lt := by decide

theorem packGeometrySplit_restores_fourPacks :
    packGeometrySplit fourPacks = .ok 3 ∧
      fourPacks.splitFactor * ∑ i ∈ Finset.range 3, fourPacks.count i ≤ fourPacks.count 3 :=
  have h : packGeometrySplit fourPacks = .ok 3 := by decide
  ⟨h, (packGeometrySplit_restores fourPacks h).2.2.2 (by decide)⟩

end GitCore.Pack
