import GitCore.Commit.MergeBases

/-! # Is a commit a descendant of another?

`repo_is_descendant_of` has two ways to find out whether a commit reaches one of several others. With
generation numbers it makes one depth-first search by `can_all_from_reach`; otherwise it paints down
from each of them by `repo_in_merge_bases_many`. Both are cut off at the smallest generation that
matters. -/

namespace GitCore.Commit

open Repository

variable {α : Type} [DecidableEq α]

/-! ## Painting -/

/-- The largest generation of the references. -/
def maxGenerationOf (r : Repository α) (reference : List α) : Nat :=
  reference.foldl (fun m c => if m < r.generation c then r.generation c else m) generationNumberZero

/-- `repo_in_merge_bases_many`: is `commit` an ancestor of one of the references? -/
def repoInMergeBasesMany (r : Repository α) (fuel : Nat) (marks : α → Marks) (commit : α)
    (reference : List α) : Except Halt ((α → Marks) × Bool) :=
  if maxGenerationOf r reference < r.generation commit then .ok (marks, false)
  else
    match paintDownToCommon r fuel commit reference (r.generation commit) marks with
    | .error e => .error e
    | .ok (painted, _) =>
      match clearPaint r fuel painted commit reference with
      | .error e => .error e
      | .ok marks => .ok (marks, (painted commit).parent2)

/-- The loop of `repo_is_descendant_of` over the commits to reach. -/
def descendantLoop (r : Repository α) (fuel : Nat) (commit : α) :
    (α → Marks) → List α → Except Halt ((α → Marks) × Bool)
  | marks, [] => .ok (marks, false)
  | marks, other :: withCommit =>
    match repoInMergeBasesMany r fuel marks other [commit] with
    | .error e => .error e
    | .ok (marks, true) => .ok (marks, true)
    | .ok (marks, false) => descendantLoop r fuel commit marks withCommit

/-! ## Searching -/

/-- `with_flag | RESULT` -/
def reachedFlags : Marks := { parent2 := true, result := true }

/-- The loop over the parents of the commit on top of the stack: it gets `RESULT` if a parent is
reached, and the first parent that was not seen before is the one to go to. -/
def scanParents (r : Repository α) (minCommitDate minGeneration : Nat) (top : α) :
    List α → (α → Marks) → (α → Marks) × Option α
  | [], marks => (marks, none)
  | p :: parents, marks =>
    let marks :=
      if (marks p).meets reachedFlags then addMarks marks top { result := true } else marks
    if (marks p).parent1 then scanParents r minCommitDate minGeneration top parents marks
    else
      let marks := addMarks marks p { parent1 := true }
      if r.date p < minCommitDate ∨ r.generation p < minGeneration then
        scanParents r minCommitDate minGeneration top parents marks
      else (marks, some p)

/-- The search from one commit. -/
def reachLoop (r : Repository α) (minCommitDate minGeneration : Nat) :
    Nat → (α → Marks) → List α → Except Halt (α → Marks)
  | 0, _, _ => .error .fuel
  | _ + 1, marks, [] => .ok marks
  | fuel + 1, marks, top :: stack =>
    if (marks top).meets reachedFlags then
      match stack with
      | [] => reachLoop r minCommitDate minGeneration fuel marks []
      | below :: stack =>
        reachLoop r minCommitDate minGeneration fuel
          (addMarks marks below { result := true }) (below :: stack)
    else
      match scanParents r minCommitDate minGeneration top (r.parents top) marks with
      | (marks, some p) =>
        reachLoop r minCommitDate minGeneration fuel marks (p :: top :: stack)
      | (marks, none) => reachLoop r minCommitDate minGeneration fuel marks stack

/-- The commits to search from, and whether none of them is below the minimal generation. -/
def collectFrom (r : Repository α) (minGeneration : Nat) (marks : α → Marks) :
    List α → List α × Bool
  | [] => ([], true)
  | c :: fromList =>
    if (marks c).parent1 then collectFrom r minGeneration marks fromList
    else if r.generation c < minGeneration then ([], false)
    else
      let out := collectFrom r minGeneration marks fromList
      (c :: out.1, out.2)

/-- The loop over the commits to search from. -/
def reachAll (r : Repository α) (fuel minCommitDate minGeneration : Nat) :
    (α → Marks) → List α → Except Halt ((α → Marks) × Bool)
  | marks, [] => .ok (marks, true)
  | marks, c :: list =>
    match reachLoop r minCommitDate minGeneration fuel (addMarks marks c { parent1 := true })
      [c] with
    | .error e => .error e
    | .ok marks =>
      if (marks c).meets reachedFlags then
        reachAll r fuel minCommitDate minGeneration marks list
      else .ok (marks, false)

/-- `can_all_from_reach_with_flag` with the flags `PARENT2` and `PARENT1`. -/
def canAllFromReachWithFlag (r : Repository α) (qsort : r.GenSort) (fuel : Nat)
    (marks : α → Marks) (fromList : List α) (minCommitDate minGeneration : Nat) :
    Except Halt ((α → Marks) × Bool) :=
  let collected := collectFrom r minGeneration marks fromList
  let list := if collected.2 then qsort.sort collected.1 else collected.1
  let searched :=
    if collected.2 then reachAll r fuel minCommitDate minGeneration marks list
    else .ok (marks, false)
  match searched with
  | .error e => .error e
  | .ok (marks, result) =>
    match clearCommitMarksMany r.parents { parent1 := true, result := true } fuel marks list with
    | .error e => .error e
    | .ok marks =>
      .ok (fromList.foldl (fun marks c => dropMarks marks c { parent1 := true }) marks, result)

/-- `can_all_from_reach` -/
def canAllFromReach (r : Repository α) (qsort : r.GenSort) (fuel : Nat) (marks : α → Marks)
    (fromList toList : List α) (cutoffByMinDate : Bool) : Except Halt ((α → Marks) × Bool) :=
  let date := match fromList with
    | [] => 0
    | c :: _ => if cutoffByMinDate then r.date c else 0
  let minCommitDate := (fromList ++ toList).foldl (fun m c => if r.date c < m then r.date c else m) date
  let minGeneration := minGenerationOf r generationNumberInfinity (fromList ++ toList)
  let marks := toList.foldl (fun marks c => addMarks marks c { parent2 := true }) marks
  match canAllFromReachWithFlag r qsort fuel marks fromList minCommitDate minGeneration with
  | .error e => .error e
  | .ok (marks, result) =>
    match clearCommitMarksMany r.parents { parent1 := true } fuel marks fromList with
    | .error e => .error e
    | .ok marks =>
      match clearCommitMarksMany r.parents { parent2 := true } fuel marks toList with
      | .error e => .error e
      | .ok marks => .ok (marks, result)

/-- `repo_is_descendant_of` -/
def repoIsDescendantOf (r : Repository α) (qsort : r.GenSort) (fuel : Nat) (marks : α → Marks)
    (commit : α) (withCommit : List α) : Except Halt ((α → Marks) × Bool) :=
  if withCommit = [] then .ok (marks, true)
  else if r.generationNumbersEnabled then
    canAllFromReach r qsort fuel marks [commit] withCommit false
  else descendantLoop r fuel commit marks withCommit

/-! ## The paint way -/

variable {r : Repository α} {fuel : Nat}

/-- **`repo_in_merge_bases_many` answers whether a reference reaches the commit.** -/
theorem repoInMergeBasesMany_spec [Fintype α] (commit : α) (reference : List α)
    (hne : reference ≠ []) (hfuel : walkFuel r reference.length ≤ fuel) :
    ∃ answer, repoInMergeBasesMany r fuel unmarked commit reference = .ok (unmarked, answer) ∧
      (answer = true ↔ ∃ two ∈ reference, r.Reaches two commit) := by
  obtain ⟨-, hclearFuel, hpaintFuel⟩ := walkFuel_bounds hfuel
  unfold repoInMergeBasesMany
  split_ifs with hgen
  · refine ⟨false, rfl, ⟨fun h => Bool.noConfusion h, ?_⟩⟩
    rintro ⟨two, htwo, hreach⟩
    have h₁ := generation_le_of_reaches hreach
    have h₂ := (foldl_greatest r.generation reference generationNumberZero).2.1 two htwo
    exact absurd (h₁.trans h₂) hgen.not_ge
  · obtain ⟨marks, result, hpaint, hspec⟩ :=
      paintDownToCommon_spec r commit (r.generation commit) hne (hpaintFuel _ le_rfl)
    refine ⟨(marks commit).parent2, ?_, hspec.parent2_one_iff le_rfl⟩
    rw [hpaint]
    simp only [clearPaint_spec hspec.sound hclearFuel]

/-- The loop over the commits to reach. -/
theorem descendantLoop_spec [Fintype α] (hfuel : walkFuel r 1 ≤ fuel) (commit : α)
    (withCommit : List α) :
    ∃ answer, descendantLoop r fuel commit unmarked withCommit = .ok (unmarked, answer) ∧
      (answer = true ↔ ∃ w ∈ withCommit, r.Reaches commit w) := by
  induction withCommit with
  | nil => exact ⟨false, rfl, by simp⟩
  | cons other withCommit ih =>
    obtain ⟨answer, hbases, hanswer⟩ := repoInMergeBasesMany_spec other [commit] (by simp) hfuel
    simp only [List.mem_singleton, exists_eq_left] at hanswer
    unfold descendantLoop
    rw [hbases]
    cases answer with
    | true => exact ⟨true, rfl, by simp [hanswer.mp rfl]⟩
    | false =>
      obtain ⟨answer, hloop, hrest⟩ := ih
      refine ⟨answer, hloop, hrest.trans ?_⟩
      have hnot : ¬ r.Reaches commit other := fun h => by cases hanswer.mpr h
      simp [hnot]

end GitCore.Commit
