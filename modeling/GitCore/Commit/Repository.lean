import GitCore.Commit.Generation
import GitCore.Commit.PrioQueue
import Mathlib.Data.List.Sort

/-! # Commits with generation numbers

What the reachability code reads of a repository: the history, the generation number of each
commit, and which numbers the commit-graph has. A generation number is never below the one of a
parent; commits outside of the commit-graph have the largest one. The comparisons by date and by
generation are here. -/

namespace GitCore.Commit

/-- The history with its commit-graph. -/
structure Repository (α : Type) extends History α where
  /-- `commit_graph_generation` -/
  generation : α → Nat
  /-- `generation_numbers_enabled` -/
  generationNumbersEnabled : Bool
  /-- `corrected_commit_dates_enabled` -/
  correctedCommitDatesEnabled : Bool
  /-- Nothing is above `GENERATION_NUMBER_INFINITY`. -/
  generation_le : ∀ c, generation c ≤ generationNumberInfinity
  /-- A commit is not below its parents. -/
  generation_parent : ∀ c, ∀ p ∈ parents c, generation p ≤ generation c

namespace Repository

variable {α : Type} (r : Repository α)

/-- `compare_commits_by_commit_date`: newer commits with larger date first. -/
def compareCommitsByCommitDate (a b : α) : Ordering :=
  if r.date a < r.date b then .gt
  else if r.date a > r.date b then .lt
  else .eq

/-- `compare_commits_by_gen_then_commit_date`: newer commits first, the date as a heuristic when
generations are equal. -/
def compareCommitsByGenThenCommitDate (a b : α) : Ordering :=
  if r.generation a < r.generation b then .gt
  else if r.generation a > r.generation b then .lt
  else if r.date a < r.date b then .gt
  else if r.date a > r.date b then .lt
  else .eq

/-- `compare_commits_by_gen`: the smallest generation first. -/
def compareCommitsByGen (a b : α) : Ordering :=
  if r.generation a < r.generation b then .lt
  else if r.generation a > r.generation b then .gt
  else if r.date a < r.date b then .lt
  else if r.date a > r.date b then .gt
  else .eq

/-- `commit_list_sort_by_date`: a stable sort, newest first. -/
def commitListSortByDate (list : List α) : List α :=
  list.mergeSort fun a b => decide (r.date b ≤ r.date a)

/-- `QSORT` by `compare_commits_by_gen`: the commits come out in order of generation and date; how
equal ones are placed is up to the C library. -/
structure GenSort where
  /-- The sorted array. -/
  sort : List α → List α
  perm : ∀ l, (sort l).Perm l
  sorted : ∀ l, (sort l).Pairwise fun a b => (r.compareCommitsByGen a b).isLE

/-! ## The comparisons are lawful -/

variable {r}

theorem compareCommitsByCommitDate_eq :
    r.compareCommitsByCommitDate = fun a b => compare (r.date b) (r.date a) := by
  funext a b
  simp only [compareCommitsByCommitDate, Nat.compare_eq_ite_lt]
  split_ifs <;> first | rfl | omega

theorem compareCommitsByGenThenCommitDate_eq :
    r.compareCommitsByGenThenCommitDate =
      compareLex (fun a b => compare (r.generation b) (r.generation a))
        r.compareCommitsByCommitDate := by
  funext a b
  simp only [compareCommitsByGenThenCommitDate, compareCommitsByCommitDate, compareLex, Nat.compare_eq_ite_lt]
  split_ifs <;> first | rfl | omega

instance : Std.TransCmp r.compareCommitsByCommitDate := by
  rw [compareCommitsByCommitDate_eq]
  exact transCmp_on (fun a b : Nat => compare b a) r.date

instance : Std.TransCmp r.compareCommitsByGenThenCommitDate := by
  rw [compareCommitsByGenThenCommitDate_eq]
  have := transCmp_on (fun a b : Nat => compare b a) r.generation
  exact inferInstanceAs (Std.TransCmp (compareLex _ _))

theorem compareCommitsByGen_eq :
    r.compareCommitsByGen = compareLex (fun a b => compare (r.generation a) (r.generation b))
      fun a b => compare (r.date a) (r.date b) := by
  funext a b
  simp only [compareCommitsByGen, compareLex, Nat.compare_eq_ite_lt]
  split_ifs <;> rfl

instance : Std.TransCmp r.compareCommitsByGen := by
  rw [compareCommitsByGen_eq]
  have := transCmp_on (compare : Nat → Nat → Ordering) r.generation
  have := transCmp_on (compare : Nat → Nat → Ordering) r.date
  exact inferInstanceAs (Std.TransCmp (compareLex _ _))

/-- By generation and date, what comes first has the larger generation. -/
theorem generation_le_of_isLE {a b : α} (h : (r.compareCommitsByGenThenCommitDate a b).isLE) :
    r.generation b ≤ r.generation a := by
  unfold compareCommitsByGenThenCommitDate at h
  by_contra hlt
  simp [Nat.lt_of_not_le hlt] at h

/-- In an array sorted by generation the generations ascend. -/
theorem GenSort.pairwise (s : r.GenSort) (l : List α) :
    (s.sort l).Pairwise fun a b => r.generation a ≤ r.generation b := by
  refine (s.sorted l).imp fun {a b} h => ?_
  unfold compareCommitsByGen at h
  by_contra hlt
  have hgt := Nat.lt_of_not_le hlt
  simp [hgt, hgt.not_gt] at h

/-- A merge sort by generation. -/
def GenSort.merge (r : Repository α) : r.GenSort where
  sort := fun l => l.mergeSort fun a b => (r.compareCommitsByGen a b).isLE
  perm := fun l => List.mergeSort_perm l _
  sorted := fun l => List.pairwise_mergeSort (fun _ _ _ => Std.TransCmp.isLE_trans) (fun a b => by
    rw [Bool.or_eq_true, ← Std.OrientedCmp.isGE_iff_isLE (a := a)]
    cases r.compareCommitsByGen a b <;> simp) l

/-- Along a way the generations do not grow. -/
theorem generation_le_of_reaches {c a : α} (h : r.Reaches c a) :
    r.generation a ≤ r.generation c := by
  induction h with
  | refl => exact le_rfl
  | tail _ hp ih => exact (r.generation_parent _ _ hp).trans ih

theorem mem_commitListSortByDate {l : List α} {x : α} : x ∈ r.commitListSortByDate l ↔ x ∈ l :=
  (List.mergeSort_perm l _).mem_iff

end Repository

end GitCore.Commit
