import GitCore.Lib.Walk

/-! # Flags on commits

The reachability code paints commits with the flags `PARENT1`, `PARENT2`, `STALE` and `RESULT` and
takes the paint off again by `clear_commit_marks`. The clearing follows marked commits only, so
that what it is sure to clear are the commits with a way from the start through marked ones. -/

namespace GitCore.Commit

open List
open Function (update)

variable {α : Type}

/-! ## Sets of flags -/

/-- The flags of `commit->object.flags` that the reachability code uses. -/
structure Marks where
  /-- `PARENT1` -/
  parent1 : Bool := false
  /-- `PARENT2` -/
  parent2 : Bool := false
  /-- `STALE` -/
  stale : Bool := false
  /-- `RESULT` -/
  result : Bool := false
deriving DecidableEq, Repr

namespace Marks

/-- `all_flags` -/
def all : Marks := ⟨true, true, true, true⟩

/-- `a | b` -/
@[simps] def union (a b : Marks) : Marks :=
  ⟨a.parent1 || b.parent1, a.parent2 || b.parent2, a.stale || b.stale, a.result || b.result⟩

/-- `a & b` -/
def inter (a b : Marks) : Marks :=
  ⟨a.parent1 && b.parent1, a.parent2 && b.parent2, a.stale && b.stale, a.result && b.result⟩

/-- `a & ~b` -/
def diff (a b : Marks) : Marks :=
  ⟨a.parent1 && !b.parent1, a.parent2 && !b.parent2, a.stale && !b.stale, a.result && !b.result⟩

/-- `a & b` is not zero. -/
def meets (a b : Marks) : Bool := decide (a.inter b ≠ {})

/-- `(a & b) == b` -/
def contains (a b : Marks) : Bool := decide (a.inter b = b)

theorem contains_iff {a b : Marks} : a.contains b = true ↔
    (b.parent1 → a.parent1) ∧ (b.parent2 → a.parent2) ∧ (b.stale → a.stale) ∧
      (b.result → a.result) := by
  rcases a with ⟨a1, a2, a3, a4⟩
  rcases b with ⟨b1, b2, b3, b4⟩
  simp [contains, inter, imp_iff_not_or]

theorem meets_all {a : Marks} : a.meets all = true ↔ a ≠ {} := by
  rcases a with ⟨a1, a2, a3, a4⟩
  revert a1 a2 a3 a4
  decide

theorem diff_all (a : Marks) : a.diff all = {} := by
  simp [diff, all]

/-- Taking flags off that are not there changes nothing. -/
theorem diff_of_not_meets {a b : Marks} (h : a.meets b = false) : a.diff b = a := by
  rcases a with ⟨a1, a2, a3, a4⟩
  rcases b with ⟨b1, b2, b3, b4⟩
  revert h
  revert a1 a2 a3 a4 b1 b2 b3 b4
  decide

/-- Flags that were taken off are gone. -/
theorem meets_diff (a b : Marks) : (a.diff b).meets b = false := by
  rcases a with ⟨a1, a2, a3, a4⟩
  rcases b with ⟨b1, b2, b3, b4⟩
  revert a1 a2 a3 a4 b1 b2 b3 b4
  decide

theorem diff_diff (a b : Marks) : (a.diff b).diff b = a.diff b :=
  diff_of_not_meets (meets_diff a b)

end Marks

/-! ## Clearing -/

/-- Why a walk over the commits gave no answer. -/
inductive Halt
  /-- It ran out of rounds. -/
  | fuel
  /-- `BUG` -/
  | bug
  /-- `die` -/
  | dies
  /-- It read past an array. -/
  | outOfBounds
deriving DecidableEq, Repr

section Clear

variable [DecidableEq α] (parents : α → List α) (mark : Marks)

/-- `clear_commit_marks_1` and the loop around it: the head of the list is the commit at hand, the
rest is `*plist`. A marked commit loses its marks, and its other marked parents go to the list
before the first parent becomes the commit at hand. -/
def clearCommitMarksLoop : Nat → (α → Marks) → List α → Except Halt (α → Marks)
  | 0, _, _ => .error .fuel
  | _ + 1, marks, [] => .ok marks
  | fuel + 1, marks, commit :: list =>
    if (marks commit).meets mark then
      let marks' := update marks commit ((marks commit).diff mark)
      match parents commit with
      | [] => clearCommitMarksLoop fuel marks' list
      | first :: others =>
        clearCommitMarksLoop fuel marks'
          (first :: ((others.filter fun p => (marks' p).meets mark).reverse ++ list))
    else clearCommitMarksLoop fuel marks list

/-- `clear_commit_marks` -/
def clearCommitMarks (fuel : Nat) (marks : α → Marks) (commit : α) :
    Except Halt (α → Marks) :=
  clearCommitMarksLoop parents mark fuel marks [commit]

/-- `clear_commit_marks_many` -/
def clearCommitMarksMany (fuel : Nat) : (α → Marks) → List α → Except Halt (α → Marks)
  | marks, [] => .ok marks
  | marks, commit :: commits =>
    match clearCommitMarks parents mark fuel marks commit with
    | .error e => .error e
    | .ok marks' => clearCommitMarksMany fuel marks' commits

/-- What one marked commit may cost the loop. -/
def clearCost (marks : α → Marks) (c : α) : Nat :=
  if (marks c).meets mark then (parents c).length + 1 else 0

/-- What clearing from some commits does: every commit keeps its flags or loses the ones to clear,
the given commits lose them, and so do the parents of a commit that did. -/
structure Clearing (marks : α → Marks) (starts : List α) (marks' : α → Marks) : Prop where
  frame : ∀ x, marks' x = marks x ∨ marks' x = (marks x).diff mark
  start : ∀ x ∈ starts, (marks' x).meets mark = false
  closed : ∀ x, (marks x).meets mark = true → (marks' x).meets mark = false →
    ∀ p ∈ parents x, (marks' p).meets mark = false

variable {parents mark} {marks marks₁ marks₂ : α → Marks}

section

omit [DecidableEq α]

/-- Nothing to clear from. -/
theorem Clearing.nil : Clearing parents mark marks [] marks where
  frame := fun _ => .inl rfl
  start := fun _ hx => nomatch hx
  closed := fun x hx hx' => by
    rw [hx] at hx'
    cases hx'

variable {starts : List α} (h : Clearing parents mark marks starts marks₁)
include h

/-- Clearing takes no new mark. -/
theorem Clearing.unmarked {x : α} (hx : (marks x).meets mark = false) :
    (marks₁ x).meets mark = false := by
  rcases h.frame x with h | h
  · rwa [h]
  · rw [h, Marks.meets_diff]

/-- Clearing may go on where it ended. -/
theorem Clearing.trans {starts' : List α} (h' : Clearing parents mark marks₁ starts' marks₂) :
    Clearing parents mark marks (starts ++ starts') marks₂ where
  frame := fun x => by
    rcases h.frame x with h₁ | h₁ <;> rcases h'.frame x with h₂ | h₂ <;>
      simp [h₁, h₂, Marks.diff_diff]
  start := fun x hx => by
    rcases mem_append.mp hx with hx | hx
    · exact h'.unmarked (h.start x hx)
    · exact h'.start x hx
  closed := fun x hx hx' p hp => by
    by_cases hmid : (marks₁ x).meets mark = true
    · exact h'.closed x hmid hx' p hp
    · exact h'.unmarked (h.closed x hx (by simpa using hmid) p hp)

/-- What has a way to it from a start through marked commits has lost its marks. -/
theorem Clearing.reached {s x : α} (hs : s ∈ starts)
    (hwalk : Walk parents (fun y => (marks y).meets mark = true) s x) :
    marks₁ x = (marks x).diff mark := by
  have hx : (marks₁ x).meets mark = false :=
    hwalk.carry (h.start s hs) fun y z hy _ hz hy' => h.closed y hy hy' z hz
  rcases h.frame x with hx' | hx'
  · rw [hx'] at hx ⊢
    exact (Marks.diff_of_not_meets hx).symm
  · exact hx'

end

/-- Clearing one marked commit, and then from a list that has the old one and the marked parents of
that commit. -/
theorem Clearing.step {c : α} {list list' : List α}
    (h : Clearing parents mark (update marks c ((marks c).diff mark)) list' marks₁)
    (hlist : ∀ y ∈ list, y ∈ list') (hparents : ∀ p ∈ parents c,
      (update marks c ((marks c).diff mark) p).meets mark = true → p ∈ list') :
    Clearing parents mark marks (c :: list) marks₁ := by
  have hc : (marks₁ c).meets mark = false := h.unmarked (by simp [Marks.meets_diff])
  refine ⟨fun x => ?_, fun x hx => ?_, fun x hx hx' p hp => ?_⟩
  · have hframe := h.frame x
    by_cases hxc : x = c
    · subst hxc
      simp only [Function.update_self, Marks.diff_diff, or_self] at hframe
      exact .inr hframe
    · simpa [hxc] using hframe
  · rcases mem_cons.mp hx with rfl | hx
    · exact hc
    · exact h.start x (hlist x hx)
  · by_cases hxc : x = c
    · subst hxc
      by_cases hpm : (update marks x ((marks x).diff mark) p).meets mark = true
      · exact h.start p (hparents p hp hpm)
      · exact h.unmarked (by simpa using hpm)
    · exact h.closed x (by simpa [hxc] using hx) hx' p hp

variable [Fintype α] {fuel : Nat}

/-- Clearing a marked commit pays for the parents that it puts on the list. -/
theorem clearCost_update {c : α} (hc : (marks c).meets mark = true) :
    (∑ x, clearCost parents mark (update marks c ((marks c).diff mark)) x) +
      ((parents c).length + 1) ≤ ∑ x, clearCost parents mark marks x := by
  apply sum_add_le_sum (c := c)
  · simp [clearCost, hc, Marks.meets_diff]
  · intro x hx
    simp [clearCost, hx]

/-- **The loop ends, and has cleared all that it reached.** -/
theorem clearCommitMarksLoop_spec (fuel : Nat) (marks : α → Marks) (list : List α)
    (hfuel : (∑ x, clearCost parents mark marks x) + list.length < fuel) :
    ∃ marks', clearCommitMarksLoop parents mark fuel marks list = .ok marks' ∧
      Clearing parents mark marks list marks' := by
  -- The induction is on the fuel; `clearCost` makes up for what a round puts on the list.
  induction fuel generalizing marks list with
  | zero => omega
  | succ fuel ih =>
    cases list with
    | nil =>
      exact ⟨marks, rfl, .nil⟩
    | cons c list =>
      rw [length_cons] at hfuel
      by_cases hc : (marks c).meets mark = true
      · have hcost := @clearCost_update _ _ parents mark marks _ c hc
        unfold clearCommitMarksLoop
        simp only [hc, if_true]
        cases hp : parents c with
        | nil =>
          obtain ⟨marks', hloop, hclear⟩ :=
            ih (update marks c ((marks c).diff mark)) list (by omega)
          refine ⟨marks', hloop, hclear.step (fun y hy => hy) fun p hmem => ?_⟩
          rw [hp] at hmem
          cases hmem
        | cons first others =>
          have hlen := length_filter_le (fun p =>
            (update marks c ((marks c).diff mark) p).meets mark) others
          have hfuel' : (∑ x, clearCost parents mark
                (update marks c ((marks c).diff mark)) x) +
              (first :: ((others.filter fun p => (update marks c
                ((marks c).diff mark) p).meets mark).reverse ++ list)).length < fuel := by grind
          obtain ⟨marks', hloop, hclear⟩ := ih _ _ hfuel'
          refine ⟨marks', hloop, hclear.step (fun y hy => by simp [hy]) fun p hmem hmark => ?_⟩
          grind
      · obtain ⟨marks', hloop, hclear⟩ := ih marks list (by omega)
        refine ⟨marks', by simp [clearCommitMarksLoop, hc, hloop], hclear.frame, fun x hx => ?_,
          hclear.closed⟩
        rcases mem_cons.mp hx with rfl | hx
        · exact hclear.unmarked (by simpa using hc)
        · exact hclear.start x hx

/-- The rounds that clearing from one commit takes at most. -/
def clearFuel (parents : α → List α) : Nat := (∑ x, ((parents x).length + 1)) + 2

/-- `clear_commit_marks` ends, and has cleared all that it reached. -/
theorem clearCommitMarks_spec (mark : Marks) (hfuel : clearFuel parents ≤ fuel) (marks : α → Marks)
    (commit : α) :
    ∃ marks', clearCommitMarks parents mark fuel marks commit = .ok marks' ∧
      Clearing parents mark marks [commit] marks' := by
  apply clearCommitMarksLoop_spec
  have hcost : ∑ x, clearCost parents mark marks x ≤ ∑ x, ((parents x).length + 1) := by
    apply Finset.sum_le_sum
    intro x _
    unfold clearCost
    split <;> omega
  unfold clearFuel at hfuel
  simp only [length_singleton]
  omega

/-- `clear_commit_marks_many` ends, and has cleared all that it reached. -/
theorem clearCommitMarksMany_spec (mark : Marks) (hfuel : clearFuel parents ≤ fuel)
    (marks : α → Marks) (commits : List α) :
    ∃ marks', clearCommitMarksMany parents mark fuel marks commits = .ok marks' ∧
      Clearing parents mark marks commits marks' := by
  induction commits generalizing marks with
  | nil =>
    exact ⟨marks, rfl, .nil⟩
  | cons c commits ih =>
    obtain ⟨marks₁, hone, hclear₁⟩ := clearCommitMarks_spec mark hfuel marks c
    obtain ⟨marks₂, hmany, hclear₂⟩ := ih marks₁
    exact ⟨marks₂, by simp only [clearCommitMarksMany, hone, hmany], hclear₁.trans hclear₂⟩

end Clear

end GitCore.Commit
