import GitCore.Commit.RedundantNoGen
import GitCore.Commit.RedundantWithGen

/-! # Merge bases

`repo_get_merge_bases_many` paints down from one commit and from others, takes the merges that did
not become stale, and removes the redundant ones among them. What is left are the best common
ancestors, whatever the dates say. -/

namespace GitCore.Commit

open Repository

variable {α : Type} [DecidableEq α]

/-! ## The code -/

/-- `merge_bases_many` -/
def mergeBasesMany (r : Repository α) (fuel : Nat) (marks : α → Marks) (one : α) (twos : List α) :
    Except Halt ((α → Marks) × List α) :=
  if twos.contains one then .ok (marks, [one])
  else
    match paintDownToCommon r fuel one twos 0 marks with
    | .error e => .error e
    | .ok (marks, list) =>
      .ok (marks, r.commitListSortByDate (list.filter fun c => !(marks c).stale))

/-- `clear_commit_marks(one)` and `clear_commit_marks_many(twos)` -/
def clearPaint (r : Repository α) (fuel : Nat) (marks : α → Marks) (one : α) (twos : List α) :
    Except Halt (α → Marks) :=
  match clearCommitMarks r.parents .all fuel marks one with
  | .error e => .error e
  | .ok marks => clearCommitMarksMany r.parents .all fuel marks twos

/-- `get_merge_bases_many_0` -/
def getMergeBasesMany0 (r : Repository α) (qsort : r.GenSort) (fuel : Nat) (marks : α → Marks)
    (one : α) (twos : List α) (cleanup : Bool) : Except Halt ((α → Marks) × List α) :=
  match mergeBasesMany r fuel marks one twos with
  | .error e => .error e
  | .ok (marks, result) =>
    if twos.contains one then .ok (marks, result)
    else if result.length ≤ 1 then
      if cleanup then
        match clearPaint r fuel marks one twos with
        | .error e => .error e
        | .ok marks => .ok (marks, result)
      else .ok (marks, result)
    else
      match clearPaint r fuel marks one twos with
      | .error e => .error e
      | .ok marks =>
        match removeRedundant r qsort fuel marks result with
        | .error e => .error e
        | .ok (marks, rslt) => .ok (marks, r.commitListSortByDate rslt)

/-- `repo_get_merge_bases_many` -/
def repoGetMergeBasesMany (r : Repository α) (qsort : r.GenSort) (fuel : Nat) (marks : α → Marks)
    (one : α) (twos : List α) : Except Halt ((α → Marks) × List α) :=
  getMergeBasesMany0 r qsort fuel marks one twos true

/-! ## The two ways of removing redundant commits -/

variable {r : Repository α} {fuel : Nat}

/-- **The two redundancy filters keep the same commits**, the independent ones, and leave no
flags. -/
theorem removeRedundant_filters_agree [Fintype α] (r : Repository α) (qsort : r.GenSort)
    (array : List α) (hne : array ≠ []) (hnodup : array.Nodup) :
    ∃ bound, ∀ fuel, bound ≤ fuel → ∃ kept kept',
      removeRedundantWithGen r qsort fuel unmarked array = .ok (unmarked, kept) ∧
      removeRedundantNoGen r fuel unmarked array = .ok (unmarked, kept') ∧
      (∀ x, x ∈ kept ↔ Independent r array x) ∧ ∀ x, x ∈ kept' ↔ Independent r array x := by
  refine ⟨walkFuel r array.length, fun fuel hfuel => ?_⟩
  obtain ⟨hfuel₁, hfuel₂, -⟩ := walkFuel_bounds hfuel
  obtain ⟨kept, hwith, -, hkept⟩ := removeRedundantWithGen_spec qsort hfuel₁ hfuel₂ hne hnodup
  obtain ⟨kept', hno, -, hkept'⟩ := removeRedundantNoGen_spec hfuel hne hnodup
  exact ⟨kept, kept', hwith, hno, hkept, hkept'⟩

/-- Two commits with a common parent; the parent has the latest date. -/
def forkRepository : Repository (Fin 3) where
  parents := fun c => if c = 0 then [] else [0]
  date := fun c => 10 - c.val
  acyclic := Subrelation.wf (r := fun p c : Fin 3 => p < c) (fun {p c} h => by
    revert h
    revert p c
    decide) wellFounded_lt
  generation := fun c => if c = 0 then 1 else 2
  generationNumbersEnabled := true
  correctedCommitDatesEnabled := false
  generation_le := by
    intro c
    unfold generationNumberInfinity
    split <;> omega
  generation_parent := by decide

/-- All three commits of the fork. -/
theorem removeRedundant_filters_agree_fork :
    ([0, 1, 2] : List (Fin 3)) ≠ [] ∧ ([0, 1, 2] : List (Fin 3)).Nodup ∧
      ∃ bound, ∀ fuel, bound ≤ fuel → ∃ kept kept',
        removeRedundantWithGen forkRepository (.merge _) fuel unmarked [0, 1, 2] =
          .ok (unmarked, kept) ∧
        removeRedundantNoGen forkRepository fuel unmarked [0, 1, 2] = .ok (unmarked, kept') ∧
        (∀ x, x ∈ kept ↔ Independent forkRepository [0, 1, 2] x) ∧
        ∀ x, x ∈ kept' ↔ Independent forkRepository [0, 1, 2] x :=
  ⟨by decide, by decide, removeRedundant_filters_agree forkRepository (.merge _) [0, 1, 2]
    (by decide) (by decide)⟩

/-- For an empty array neither filter gives an answer: one reads past the array, and the other asks
for an impossible amount of memory. -/
theorem removeRedundant_filters_empty :
    (∀ fuel, removeRedundantWithGen forkRepository (.merge _) fuel unmarked [] =
        .error .outOfBounds) ∧
      ∀ fuel, removeRedundantNoGen forkRepository fuel unmarked [] = .error .dies :=
  ⟨fun _ => by simp [removeRedundantWithGen, GenSort.merge], fun _ => rfl⟩

/-- `remove_redundant` keeps the independent commits, whichever way it takes. -/
theorem removeRedundant_spec [Fintype α] (qsort : r.GenSort) {array : List α}
    (hfuel : walkFuel r array.length ≤ fuel) (hne : array ≠ []) (hnodup : array.Nodup) :
    ∃ kept, removeRedundant r qsort fuel unmarked array = .ok (unmarked, kept) ∧
      kept.Sublist array ∧ ∀ x, x ∈ kept ↔ Independent r array x := by
  obtain ⟨hfuel₁, hfuel₂, -⟩ := walkFuel_bounds hfuel
  unfold removeRedundant
  split
  · exact removeRedundantWithGen_spec qsort hfuel₁ hfuel₂ hne hnodup
  · exact removeRedundantNoGen_spec hfuel hne hnodup

/-! ## Best common ancestors -/

/-- A common ancestor that is not a proper ancestor of another one. -/
def Best (r : Repository α) (one : α) (twos : List α) (x : α) : Prop :=
  Common r one twos x ∧ ∀ b, Common r one twos b → ¬ r.Ancestor b x

variable {one : α} {twos : List α}

section

omit [DecidableEq α]

/-- If `one` is among the others, it is the best common ancestor. -/
theorem best_of_mem (h : one ∈ twos) (x : α) : Best r one twos x ↔ x = one := by
  have hone : Common r one twos one := ⟨.refl one, one, h, .refl one⟩
  constructor
  · rintro ⟨hx, hbest⟩
    rcases hx.1.eq_or_ancestor with rfl | hanc
    · rfl
    · exact absurd hanc (hbest one hone)
  · rintro rfl
    exact ⟨hone, fun b hb hanc => (hb.1.trans_ancestor hanc).irrefl⟩

/-- The merges that are not stale are common ancestors, and the best ones are among them. -/
theorem PaintSpec.fresh {marks : α → Marks} {result : List α}
    (h : PaintSpec r one twos 0 marks result) :
    (∀ x ∈ result.filter fun c => !(marks c).stale, Common r one twos x) ∧
      ∀ x, Best r one twos x → x ∈ result.filter fun c => !(marks c).stale := by
  refine ⟨fun x hx => ?_, fun x hx => ?_⟩
  · have hmerge := h.resultOk.merge x ((h.resultOk.mem_iff x).mp (List.mem_filter.mp hx).1)
    exact ⟨h.sound.parent1 x hmerge.1, h.sound.parent2 x hmerge.2⟩
  obtain ⟨⟨hone, two, htwo, hreach⟩, hbest⟩ := hx
  have hfresh : (marks x).stale = false := by
    rw [← Bool.not_eq_true]
    intro hstale
    obtain ⟨b, hb, hanc⟩ := h.sound.stale x hstale
    exact hbest b hb hanc
  have hlisted := h.listed x (h.parent1_of_reaches (Nat.zero_le _) hbest hone)
    (h.parent2_of_reaches (Nat.zero_le _) hbest htwo hreach) hfresh (Nat.zero_le _)
  exact List.mem_filter.mpr ⟨hlisted, by simp [hfresh]⟩

variable {list : List α}

/-- Of common ancestors with all best ones among them, the best ones are the independent ones. -/
theorem independent_iff_best [Finite α]
    (hcommon : ∀ x ∈ list, Common r one twos x) (hbest : ∀ x, Best r one twos x → x ∈ list)
    (x : α) : Independent r list x ↔ Best r one twos x := by
  rw [independent_iff]
  constructor
  · rintro ⟨hx, hnone⟩
    refine ⟨hcommon x hx, fun b hb hanc => ?_⟩
    obtain ⟨z, hz, htop, hzx⟩ := exists_top_above hb hanc
    exact hnone z (hbest z ⟨hz, htop⟩) hzx
  · intro hx
    exact ⟨hbest x hx, fun y hy => hx.2 y (hcommon y hy)⟩

/-- A single commit is independent. -/
theorem independent_of_length_le (hlen : list.length ≤ 1) (x : α) :
    Independent r list x ↔ x ∈ list := by
  refine ⟨fun h => h.1, fun hx => ⟨hx, fun y hy hne => ?_⟩⟩
  match list, hlen with
  | [z], _ =>
    grind

theorem nodup_commitListSortByDate (h : list.Nodup) : (r.commitListSortByDate list).Nodup :=
  (List.mergeSort_perm list _).nodup_iff.mpr h

end

theorem clearPaint_spec [Fintype α] {marks : α → Marks} (h : PaintSound r one twos marks)
    (hfuel : clearFuel r.parents ≤ fuel) :
    clearPaint r fuel marks one twos = .ok unmarked := by
  obtain ⟨marks₁, hone, hmany⟩ := h.clear hfuel
  unfold clearPaint
  rw [hone]
  exact hmany

/-- **Merge bases are exactly the best common ancestors**, each one once, and no flags are left. -/
theorem repoGetMergeBasesMany_best [Fintype α] (r : Repository α) (qsort : r.GenSort) (one : α)
    (twos : List α) (htwos : twos ≠ []) :
    ∃ bound, ∀ fuel, bound ≤ fuel → ∃ bases,
      repoGetMergeBasesMany r qsort fuel unmarked one twos = .ok (unmarked, bases) ∧
      bases.Nodup ∧ ∀ x, x ∈ bases ↔ Best r one twos x := by
  refine ⟨walkFuel r (Fintype.card α + twos.length), fun fuel hfuel => ?_⟩
  unfold repoGetMergeBasesMany getMergeBasesMany0 mergeBasesMany
  by_cases hmem : one ∈ twos
  · have hcontains : twos.contains one = true := List.contains_iff_mem.mpr hmem
    simp only [hcontains, if_true]
    refine ⟨[one], rfl, List.nodup_singleton one, fun x => ?_⟩
    rw [best_of_mem hmem, List.mem_singleton]
  have hcontains : twos.contains one = false := by simpa using hmem
  obtain ⟨-, hclearFuel, hpaintFuel⟩ := walkFuel_bounds hfuel
  obtain ⟨marks, list, hpaint, hspec⟩ := paintDownToCommon_spec r one 0 htwos
    (hpaintFuel twos (Nat.le_add_left _ _))
  have hclear := clearPaint_spec hspec.sound hclearFuel
  have hnodup : (list.filter fun c => !(marks c).stale).Nodup := hspec.resultOk.nodup.filter _
  obtain ⟨hcommon, hbest⟩ := hspec.fresh
  have hindependent : ∀ x, Independent r
      (r.commitListSortByDate (list.filter fun c => !(marks c).stale)) x ↔ Best r one twos x := by
    apply independent_iff_best
    · exact fun x hx => hcommon x (mem_commitListSortByDate.mp hx)
    · exact fun x hx => mem_commitListSortByDate.mpr (hbest x hx)
  simp only [hcontains, Bool.false_eq_true, if_false, if_true, hpaint, hclear]
  split_ifs with hlen
  · refine ⟨_, rfl, nodup_commitListSortByDate hnodup, fun x => ?_⟩
    rw [← hindependent, independent_of_length_le hlen]
  have hcard : (r.commitListSortByDate (list.filter fun c => !(marks c).stale)).length ≤
      Fintype.card α := (nodup_commitListSortByDate hnodup).length_le_card
  have hwalkFuel : walkFuel r (r.commitListSortByDate
      (list.filter fun c => !(marks c).stale)).length ≤ fuel := by
    unfold walkFuel at hfuel ⊢
    omega
  have hne : r.commitListSortByDate (list.filter fun c => !(marks c).stale) ≠ [] := by grind
  obtain ⟨kept, hredundant, hsub, hkept⟩ := removeRedundant_spec qsort hwalkFuel hne
    (nodup_commitListSortByDate hnodup)
  rw [hredundant]
  refine ⟨_, rfl, nodup_commitListSortByDate (hsub.nodup (nodup_commitListSortByDate hnodup)),
    fun x => ?_⟩
  rw [mem_commitListSortByDate, hkept, hindependent]

/-- The two tips of the fork. -/
theorem repoGetMergeBasesMany_best_fork :
    ([2] : List (Fin 3)) ≠ [] ∧ ∃ bound, ∀ fuel, bound ≤ fuel → ∃ bases,
      repoGetMergeBasesMany forkRepository (.merge _) fuel unmarked 1 [2] = .ok (unmarked, bases) ∧
      bases.Nodup ∧ ∀ x, x ∈ bases ↔ Best forkRepository 1 [2] x :=
  ⟨by decide, repoGetMergeBasesMany_best forkRepository (.merge _) 1 [2] (by decide)⟩

end GitCore.Commit
