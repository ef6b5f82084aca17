import GitCore.Commit.Redundant
import GitCore.Lib.SortedList

/-! # Removing redundant commits by painting

Each round of `remove_redundant_no_gen` decides about one commit: it has `PARENT2` if and only if
another commit that is still in the race reaches it. That is enough, since whatever is redundant is
below an independent commit, and an independent commit is never thrown out. -/

namespace GitCore.Commit

open List Repository

variable {α : Type} [DecidableEq α] {r : Repository α} {array : List α}

/-! ## One paint -/

section

omit [DecidableEq α]

/-- The entries of `work` are the other commits that are not redundant. -/
theorem mem_noGenWork {redundant : Nat → Bool} {i j : Nat} {x : α} :
    (x, j) ∈ noGenWork array redundant i ↔ array[j]? = some x ∧ i ≠ j ∧ redundant j = false := by
  simp [noGenWork, mk_mem_zipIdx_iff_getElem?]

/-- What a paint says about a position. -/
theorem noteRedundant_iff (marks : α → Marks) (one : α) (i j : Nat) (work : List (α × Nat))
    (redundant : Nat → Bool) :
    noteRedundant marks one i work redundant j = true ↔
      redundant j = true ∨ j = i ∧ (marks one).parent2 = true ∨
        ∃ x, (x, j) ∈ work ∧ (marks x).parent1 = true := by
  have hfold : ∀ red : Nat → Bool,
      work.foldl (fun red e => if (marks e.1).parent1 then Function.update red e.2 true else red)
          red j = true ↔
        red j = true ∨ ∃ x, (x, j) ∈ work ∧ (marks x).parent1 = true := by
    induction work with
    | nil => simp
    | cons e work ih =>
      intro red
      obtain ⟨y, k⟩ := e
      rw [foldl_cons, ih]
      by_cases hy : (marks y).parent1 = true
      · grind
      grind
  rw [noteRedundant, hfold]
  grind

end

/-- What the loop knows: the flags are clean, and what it threw out is below another commit of the
array. -/
structure NoGenInv (r : Repository α) (array : List α) (s : NoGenState α) : Prop where
  clean : s.marks = unmarked
  sound : ∀ j x, array[j]? = some x → s.redundant j = true → ¬ Independent r array x

/-- The round that decides about `one` at position `i`. -/
structure NoGenRound (r : Repository α) (array : List α) (one : α) (i : Nat)
    (redundant redundant' : Nat → Bool) : Prop where
  mono : ∀ j, redundant j = true → redundant' j = true
  sound : ∀ j x, array[j]? = some x → redundant' j = true → redundant j = true ∨
    ¬ Independent r array x
  complete : ¬ Independent r array one → redundant' i = true

section Round

variable {one : α} {i : Nat} {redundant : Nat → Bool}

section

omit [DecidableEq α]

/-- In an array without duplicates other positions have other commits. -/
theorem ne_of_index_ne (hnodup : array.Nodup) {x y : α} {j : Nat} (hi : array[i]? = some x)
    (hj : array[j]? = some y) (hij : i ≠ j) : x ≠ y := by
  rintro rfl
  obtain ⟨hilt, hi⟩ := List.getElem?_eq_some_iff.mp hi
  obtain ⟨hjlt, hj⟩ := List.getElem?_eq_some_iff.mp hj
  exact hij (hnodup.getElem_inj_iff.mp (hi.trans hj.symm))

/-- What is below another commit of the array is not independent. -/
theorem not_independent {x y : α} (hy : y ∈ array) (hne : y ≠ x) (hreach : r.Reaches y x) :
    ¬ Independent r array x := fun h => h.2 y hy hne hreach

variable [Finite α] (hone : array[i]? = some one)
  (hsound : ∀ j x, array[j]? = some x → redundant j = true → ¬ Independent r array x)
include hone hsound

/-- A redundant commit is below an independent one that is in `work`. -/
theorem exists_work_above (h : ¬ Independent r array one) :
    ∃ z j, (z, j) ∈ noGenWork array redundant i ∧ r.Reaches z one := by
  rw [independent_iff, not_and] at h
  have hmem : one ∈ array := mem_of_getElem? hone
  have := h hmem
  push Not at this
  obtain ⟨y, hy, hanc⟩ := this
  obtain ⟨z, hz, hzone⟩ := exists_independent_above hy hanc
  obtain ⟨j, hj⟩ := mem_iff_getElem?.mp hz.1
  refine ⟨z, j, mem_noGenWork.mpr ⟨hj, ?_, ?_⟩, hzone.reaches⟩
  · rintro rfl
    rw [hone] at hj
    cases hj
    exact hzone.irrefl
  grind

/-- A paint as specified decides about `one`. -/
theorem PaintSpec.noGenRound (hnodup : array.Nodup)
    {minGeneration : Nat} {marks : α → Marks} {result : List α}
    (hgen : minGeneration ≤ r.generation one)
    (h : PaintSpec r one ((noGenWork array redundant i).map Prod.fst) minGeneration marks result) :
    NoGenRound r array one i redundant
      (noteRedundant marks one i (noGenWork array redundant i) redundant) := by
  refine ⟨fun j hj => ?_, fun j x hx hj => ?_, fun hnot => ?_⟩
  · exact (noteRedundant_iff ..).mpr (.inl hj)
  · rcases (noteRedundant_iff ..).mp hj with hold | ⟨rfl, hmark⟩ | ⟨y, hy, hmark⟩
    · exact .inl hold
    · right
      obtain rfl : one = x := Option.some.inj (hone.symm.trans hx)
      obtain ⟨two, htwo, hreach⟩ := h.sound.parent2 one hmark
      obtain ⟨⟨z, k⟩, hz, rfl⟩ := mem_map.mp htwo
      rw [mem_noGenWork] at hz
      exact not_independent (mem_of_getElem? hz.1)
        (ne_of_index_ne hnodup hone hz.1 hz.2.1).symm hreach
    · right
      rw [mem_noGenWork] at hy
      obtain rfl : y = x := Option.some.inj (hy.1.symm.trans hx)
      exact not_independent (mem_of_getElem? hone) (ne_of_index_ne hnodup hone hx hy.2.1)
        (h.sound.parent1 y hmark)
  · refine (noteRedundant_iff ..).mpr (.inr (.inl ⟨rfl, ?_⟩))
    obtain ⟨z, j, hz, hreach⟩ := exists_work_above hone hsound hnot
    exact (h.parent2_one_iff hgen).mpr ⟨z, mem_map.mpr ⟨(z, j), hz, rfl⟩, hreach⟩

end

end Round

/-! ## The loop -/

/-- The fuel that is enough for all that `remove_redundant` starts. -/
def walkFuel [Fintype α] (r : Repository α) (n : Nat) : Nat :=
  3 * Fintype.card α + n + 2 + clearFuel r.parents

omit [DecidableEq α] in
theorem walkFuel_bounds [Fintype α] {n fuel : Nat} (h : walkFuel r n ≤ fuel) :
    2 * Fintype.card α + 2 ≤ fuel ∧ clearFuel r.parents ≤ fuel ∧
      ∀ twos : List α, twos.length ≤ n → paintFuel α twos ≤ fuel := by
  unfold walkFuel at h
  refine ⟨by omega, by omega, fun twos hle => ?_⟩
  unfold paintFuel
  omega

/-- Painting from a single commit that is left marks only that commit. -/
theorem paintSound_single (one : α) :
    PaintSound r one [] (addMarks unmarked one { parent1 := true }) := by
  have hmarks : ∀ x, addMarks unmarked one { parent1 := true } x =
      { parent1 := decide (x = one) } := by
    intro x
    by_cases hx : x = one
    · subst hx
      simp [unmarked, Marks.union]
    · rw [addMarks_of_ne _ hx]
      simp [unmarked, hx]
  refine ⟨?_, ?_, ?_, ?_, ?_, ?_, ?_⟩ <;> simp only [hmarks]
  · intro x hx
    rw [of_decide_eq_true hx]
    exact .refl one
  · simp
  · simp
  · simp
  · simp
  · simp
  · intro x hx
    refine ⟨x, ?_, .refl hx⟩
    grind

section

variable [Fintype α] {fuel : Nat} (hfuel : walkFuel r array.length ≤ fuel)

include hfuel

/-- One round of `remove_redundant_no_gen`: the paint and the clearing succeed, and what the round
notes is right. -/
theorem noGenRound_spec (hnodup : array.Nodup) {one : α} {i : Nat} (hone : array[i]? = some one)
    {s : NoGenState α} (hinv : NoGenInv r array s) (twos : List α)
    (htwos : twos = (noGenWork array s.redundant i).map Prod.fst) :
    ∃ marks result marks₁,
      paintDownToCommon r fuel one twos (minGenerationOf r (r.generation one) twos) s.marks =
        .ok (marks, result) ∧
      clearCommitMarks r.parents .all fuel marks one = .ok marks₁ ∧
      clearCommitMarksMany r.parents .all fuel marks₁ twos = .ok unmarked ∧
      NoGenRound r array one i s.redundant
        (noteRedundant marks one i (noGenWork array s.redundant i) s.redundant) := by
  have hlen : twos.length ≤ array.length := by
    rw [htwos, length_map]
    exact (length_filter_le _ _).trans (by simp)
  obtain ⟨-, hclear, hpaintFuel⟩ := walkFuel_bounds hfuel
  rw [hinv.clean]
  by_cases hempty : twos = []
  · -- no other commit is in the race: nothing is painted, and `one` is independent
    have hwork : noGenWork array s.redundant i = [] := by grind
    obtain ⟨marks₁, hone₁, hmany⟩ := (paintSound_single (r := r) one).clear hclear
    refine ⟨_, [one], marks₁, ?_, hone₁, ?_, ?_⟩
    · rw [hempty]
      rfl
    · rw [hempty]
      exact hmany
    rw [hwork]
    have hsame : noteRedundant (addMarks unmarked one { parent1 := true }) one i [] s.redundant =
        s.redundant := by
      simp [noteRedundant, unmarked]
    rw [hsame]
    refine ⟨fun j hj => hj, fun j x _ hj => .inl hj, fun hnot => ?_⟩
    obtain ⟨z, j, hz, -⟩ := exists_work_above hone hinv.sound hnot
    rw [hwork] at hz
    cases hz
  · obtain ⟨marks, result, hpaint, hspec⟩ := paintDownToCommon_spec r one
      (minGenerationOf r (r.generation one) twos) hempty (hpaintFuel twos hlen)
    obtain ⟨marks₁, hone₁, hmany⟩ := hspec.sound.clear hclear
    refine ⟨marks, result, marks₁, hpaint, hone₁, hmany, ?_⟩
    subst htwos
    exact hspec.noGenRound hone hinv.sound hnodup
      (foldl_greatest (κ := ℕᵒᵈ) r.generation _ (r.generation one)).1

/-- **The loop decides about all commits that are left.** -/
theorem noGenLoop_spec (hnodup : array.Nodup) (rest : List (α × Nat))
    (hrest : ∀ e ∈ rest, array[e.2]? = some e.1) (s : NoGenState α) (hinv : NoGenInv r array s) :
    ∃ s', noGenLoop r fuel array rest s = .ok s' ∧ NoGenInv r array s' ∧
      (∀ j, s.redundant j = true → s'.redundant j = true) ∧
      ∀ e ∈ rest, ¬ Independent r array e.1 → s'.redundant e.2 = true := by
  induction rest generalizing s with
  | nil => exact ⟨s, rfl, hinv, fun j hj => hj, fun e he => nomatch he⟩
  | cons e rest ih =>
    obtain ⟨one, i⟩ := e
    have hone : array[i]? = some one := hrest (one, i) mem_cons_self
    have hrest' : ∀ e ∈ rest, array[e.2]? = some e.1 := fun e he =>
      hrest e (mem_cons_of_mem _ he)
    unfold noGenLoop
    split_ifs with hred
    · obtain ⟨s', hloop, hinv', hmono, hcomplete⟩ := ih hrest' s hinv
      refine ⟨s', hloop, hinv', hmono, fun e he hnot => ?_⟩
      rcases mem_cons.mp he with rfl | he
      · exact hmono i hred
      · exact hcomplete e he hnot
    obtain ⟨marks, result, marks₁, hpaint, hone₁, hmany, hround⟩ :=
      noGenRound_spec hfuel hnodup hone hinv _ rfl
    have hnext : NoGenInv r array (NoGenState.mk unmarked
        (noteRedundant marks one i (noGenWork array s.redundant i) s.redundant)) := by
      refine ⟨rfl, fun j x hx hj => ?_⟩
      rcases hround.sound j x hx hj with hj | hnot
      · exact hinv.sound j x hx hj
      · exact hnot
    obtain ⟨s', hloop, hinv', hmono, hcomplete⟩ := ih hrest' _ hnext
    refine ⟨s', ?_, hinv', fun j hj => hmono j (hround.mono j hj), fun e he hnot => ?_⟩
    · simp only [hpaint, hone₁, hmany]
      exact hloop
    · rcases mem_cons.mp he with rfl | he
      · exact hmono i (hround.complete hnot)
      · exact hcomplete e he hnot

/-- **`remove_redundant_no_gen` keeps the independent commits**, in their order, and leaves no
flags. -/
theorem removeRedundantNoGen_spec (hne : array ≠ []) (hnodup : array.Nodup) :
    ∃ kept, removeRedundantNoGen r fuel unmarked array = .ok (unmarked, kept) ∧
      kept.Sublist array ∧ ∀ x, x ∈ kept ↔ Independent r array x := by
  obtain ⟨s, hloop, hinv, -, hcomplete⟩ := noGenLoop_spec hfuel hnodup array.zipIdx
    (fun e he => mk_mem_zipIdx_iff_getElem?.mp he)
    { marks := unmarked, redundant := fun _ => false }
    ⟨rfl, fun _ _ _ h => absurd h (by simp)⟩
  refine ⟨(array.zipIdx.filter fun e => !s.redundant e.2).map Prod.fst, ?_, ?_, fun x => ?_⟩
  · unfold removeRedundantNoGen
    rw [if_neg hne]
    simp only [hloop, hinv.clean]
  · have hsub := (filter_sublist (l := array.zipIdx) (p := fun e => !s.redundant e.2)).map Prod.fst
    rwa [zipIdx_map_fst] at hsub
  simp only [mem_map, mem_filter, Prod.exists, exists_and_right, exists_eq_right, Bool.not_eq_true']
  constructor
  · grind
  · intro hx
    obtain ⟨i, hi⟩ := mem_iff_getElem?.mp hx.1
    refine ⟨i, mk_mem_zipIdx_iff_getElem?.mpr hi, ?_⟩
    rw [← Bool.not_eq_true]
    exact fun hred => hinv.sound i x hi hred hx

end

end GitCore.Commit
