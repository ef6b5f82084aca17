import GitCore.Commit.Marks
import GitCore.Commit.Repository

/-! # Painting down to common ancestors

`paint_down_to_common` paints `PARENT1` down from one commit and `PARENT2` down from others. A
commit with both is a common ancestor: it goes to the result, and its parents are painted `STALE`
as well. The queue is in order of dates, so that with skewed clocks a commit may get more paint
after it was handled; it is put in the queue again then.

The parts of the code that need no invariant are specified here: what a commit hands on
(`spread_eq`), what the loop over the parents does (`paintParents_spec`), and why the main loop comes
to an end (`paintParents_measure`). -/

namespace GitCore.Commit

open List Repository

variable {α : Type} [DecidableEq α] {m a : Marks}

/-! ## The code -/

/-- `commit->object.flags |= flags` -/
def addMarks (marks : α → Marks) (c : α) (flags : Marks) : α → Marks :=
  Function.update marks c ((marks c).union flags)

/-- Changing the flags of the commits of a list, with a change that does no more when repeated. -/
theorem foldl_update {f : Marks → Marks} (hf : ∀ m, f (f m) = f m) (list : List α)
    (marks : α → Marks) (x : α) :
    list.foldl (fun marks c => Function.update marks c (f (marks c))) marks x =
      if x ∈ list then f (marks x) else marks x := by
  induction list generalizing marks with
  | nil => rfl
  | cons c list ih =>
    rw [foldl_cons, ih]
    grind

/-- `flags & (PARENT1 | PARENT2 | STALE)` -/
def paintFlags (m : Marks) : Marks := m.inter ⟨true, true, true, false⟩

/-- `PARENT1 | PARENT2` -/
def foundMerge : Marks := ⟨true, true, false, false⟩

/-- The flags that a commit hands on: its own paint, and `STALE` below a found merge. -/
def spread (m : Marks) : Marks :=
  if paintFlags m = foundMerge then (paintFlags m).union { stale := true } else paintFlags m

/-- The comparison of the queue. -/
def paintCompare (r : Repository α) (minGeneration : Nat) : α → α → Ordering :=
  if minGeneration = 0 ∧ r.correctedCommitDatesEnabled = false then r.compareCommitsByCommitDate
  else r.compareCommitsByGenThenCommitDate

instance (r : Repository α) (minGeneration : Nat) : Std.TransCmp (paintCompare r minGeneration) := by
  unfold paintCompare
  split <;> infer_instance

/-- The variables of the loop. -/
structure PaintState (cmp : α → α → Ordering) where
  /-- The flags of all commits. -/
  marks : α → Marks
  /-- `queue` -/
  queue : PrioQueue cmp
  /-- `*result` -/
  result : List α
  /-- `last_gen` -/
  lastGen : Nat

section Code

variable {cmp : α → α → Ordering} [Std.TransCmp cmp]

/-- `queue_has_nonstale` -/
def queueHasNonstale (marks : α → Marks) (queue : PrioQueue cmp) : Bool :=
  queue.items.any fun c => !(marks c).stale

/-- A commit with both colours that has no `RESULT` yet. -/
def newMerge (m : Marks) : Bool := decide (paintFlags m = foundMerge) && !m.result

/-- A new merge gets `RESULT` and is appended to the result. -/
def noteMerge (marks : α → Marks) (result : List α) (commit : α) : (α → Marks) × List α :=
  if newMerge (marks commit) then
    (addMarks marks commit { result := true }, result ++ [commit])
  else (marks, result)

/-- The loop over the parents: those that lack some of the flags get them and are put in the
queue. -/
def paintParents (flags : Marks) :
    List α → (α → Marks) → PrioQueue cmp → (α → Marks) × PrioQueue cmp
  | [], marks, queue => (marks, queue)
  | p :: parents, marks, queue =>
    if (marks p).contains flags then paintParents flags parents marks queue
    else paintParents flags parents (addMarks marks p flags) (queue.put p)

/-- The body of the loop after the commit was taken out of the queue. -/
def paintCommit (r : Repository α) (s : PaintState cmp) (commit : α) (queue : PrioQueue cmp) :
    PaintState cmp :=
  let noted := noteMerge s.marks s.result commit
  let painted := paintParents (spread (s.marks commit)) (r.parents commit) noted.1 queue
  { marks := painted.1, queue := painted.2, result := noted.2, lastGen := r.generation commit }

/-- The loop of `paint_down_to_common`. -/
def paintLoop (r : Repository α) (minGeneration : Nat) :
    Nat → PaintState cmp → Except Halt (PaintState cmp)
  | 0, _ => .error .fuel
  | fuel + 1, s =>
    if queueHasNonstale s.marks s.queue then
      match s.queue.get with
      | none => .ok s
      | some (commit, queue) =>
        if minGeneration ≠ 0 ∧ s.lastGen < r.generation commit then .error .bug
        else if r.generation commit < minGeneration then
          .ok { s with queue := queue, lastGen := r.generation commit }
        else paintLoop r minGeneration fuel (paintCommit r s commit queue)
    else .ok s

/-- The loop over `twos` before the main loop. -/
def paintTwos (twos : List α) (marks : α → Marks) (queue : PrioQueue cmp) :
    (α → Marks) × PrioQueue cmp :=
  twos.foldl (fun s two => (addMarks s.1 two { parent2 := true }, s.2.put two)) (marks, queue)

end Code

/-- `paint_down_to_common`: the flags after it and the result. -/
def paintDownToCommon (r : Repository α) (fuel : Nat) (one : α) (twos : List α)
    (minGeneration : Nat) (marks : α → Marks) : Except Halt ((α → Marks) × List α) :=
  let marks := addMarks marks one { parent1 := true }
  match twos with
  | [] => .ok (marks, [one])
  | _ :: _ =>
    let start := paintTwos twos marks ((PrioQueue.empty (paintCompare r minGeneration)).put one)
    match paintLoop r minGeneration fuel
      { marks := start.1, queue := start.2, result := [], lastGen := generationNumberInfinity } with
    | .error e => .error e
    | .ok s => .ok (s.marks, r.commitListSortByDate s.result)

/-! ## The paint that is handed on -/

@[simp] theorem addMarks_self (marks : α → Marks) (c : α) (flags : Marks) :
    addMarks marks c flags c = (marks c).union flags := by
  simp [addMarks]

@[simp] theorem addMarks_of_ne {marks : α → Marks} {c x : α} (flags : Marks) (h : x ≠ c) :
    addMarks marks c flags x = marks x := by
  simp [addMarks, h]

/-- Flag by flag, the paint of `addMarks`. -/
@[simp] theorem addMarks_flags (marks : α → Marks) (c : α) (flags : Marks) (x : α) :
    (addMarks marks c flags x).parent1 = ((marks x).parent1 || decide (x = c) && flags.parent1) ∧
    (addMarks marks c flags x).parent2 = ((marks x).parent2 || decide (x = c) && flags.parent2) ∧
    (addMarks marks c flags x).stale = ((marks x).stale || decide (x = c) && flags.stale) ∧
    (addMarks marks c flags x).result = ((marks x).result || decide (x = c) && flags.result) := by
  by_cases h : x = c <;> simp [h]

theorem paintFlags_eq_foundMerge :
    paintFlags m = foundMerge ↔ m.parent1 = true ∧ m.parent2 = true ∧ m.stale = false := by
  rcases m with ⟨m1, m2, m3, m4⟩
  simp [paintFlags, foundMerge, Marks.inter]

theorem newMerge_iff : newMerge m = true ↔
    m.parent1 = true ∧ m.parent2 = true ∧ m.stale = false ∧ m.result = false := by
  simp [newMerge, paintFlags_eq_foundMerge, and_assoc]

/-- A commit hands on its paint; with both colours, also `STALE`. -/
theorem spread_eq (m : Marks) :
    spread m = ⟨m.parent1, m.parent2, m.stale || (m.parent1 && m.parent2), false⟩ := by
  rcases m with ⟨m1, m2, m3, m4⟩
  revert m1 m2 m3 m4
  decide

theorem contains_spread : a.contains (spread m) = true ↔
    (m.parent1 → a.parent1) ∧ (m.parent2 → a.parent2) ∧
      (m.stale ∨ m.parent1 ∧ m.parent2 → a.stale) := by
  simp [spread_eq, Marks.contains_iff]

/-- How many of the three colours a commit lacks. -/
def lacking (m : Marks) : Nat :=
  (if m.parent1 then 0 else 1) + (if m.parent2 then 0 else 1) + (if m.stale then 0 else 1)

/-- Paint that was lacking makes a commit lack less. -/
theorem lacking_union {f : Marks} (hf : f.result = false) (h : m.contains f = false) :
    lacking (m.union f) + 1 ≤ lacking m := by
  rcases m with ⟨m1, m2, m3, m4⟩
  rcases f with ⟨f1, f2, f3, f4⟩
  subst hf
  revert h
  revert m1 m2 m3 m4 f1 f2 f3
  decide

section Parents

variable {cmp : α → α → Ordering} [Std.TransCmp cmp]

omit [DecidableEq α] [Std.TransCmp cmp] in
/-- There is a commit that is not stale in the queue. -/
theorem queueHasNonstale_iff {marks : α → Marks} {queue : PrioQueue cmp} :
    queueHasNonstale marks queue = true ↔ ∃ c ∈ queue.items, (marks c).stale = false := by
  simp [queueHasNonstale]

/-- What the loop over the parents does: they have the flags in the end, and whoever's flags
changed is a parent and in the queue. -/
structure Painted (flags : Marks) (parents : List α) (marks : α → Marks) (queue : PrioQueue cmp)
    (marks' : α → Marks) (queue' : PrioQueue cmp) : Prop where
  frame : ∀ x, marks' x = marks x ∨
    x ∈ parents ∧ marks' x = (marks x).union flags ∧ x ∈ queue'.items
  painted : ∀ p ∈ parents, (marks' p).contains flags = true
  queue_mono : ∀ x ∈ queue.items, x ∈ queue'.items
  queue_new : ∀ x ∈ queue'.items, x ∈ queue.items ∨ x ∈ parents

theorem Marks.contains_union (a b : Marks) : (a.union b).contains b = true := by
  rw [Marks.contains_iff]
  simp +contextual

theorem Marks.union_of_contains {b : Marks} (h : a.contains b = true) : a.union b = a := by
  rw [Marks.contains_iff] at h
  rcases a with ⟨a1, a2, a3, a4⟩
  rcases b with ⟨b1, b2, b3, b4⟩
  simpa [Marks.union] using h

theorem Marks.union_union (a b : Marks) : (a.union b).union b = a.union b :=
  Marks.union_of_contains (Marks.contains_union a b)

/-- The loop over the parents, one parent at a time. -/
theorem paintParents_spec (flags : Marks) (parents : List α) (marks : α → Marks)
    (queue : PrioQueue cmp) :
    Painted flags parents marks queue (paintParents flags parents marks queue).1
      (paintParents flags parents marks queue).2 := by
  induction parents generalizing marks queue with
  | nil =>
    refine ⟨fun x => .inl rfl, fun p hp => ?_, fun x hx => hx, fun x hx => .inl hx⟩
    cases hp
  | cons p parents ih =>
    unfold paintParents
    split_ifs with hp
    · have h := ih marks queue
      refine ⟨fun x => ?_, fun q hq => ?_, h.queue_mono, fun x hx => ?_⟩
      · rcases h.frame x with hx | ⟨hx, hx', hx''⟩
        · exact .inl hx
        · exact .inr ⟨mem_cons_of_mem _ hx, hx', hx''⟩
      · rcases mem_cons.mp hq with rfl | hq
        · rcases h.frame q with hx | ⟨-, hx, -⟩
          · rwa [hx]
          · rw [hx]
            exact Marks.contains_union _ _
        · exact h.painted q hq
      · rcases h.queue_new x hx with hx | hx
        · exact .inl hx
        · exact .inr (mem_cons_of_mem _ hx)
    · have h := ih (addMarks marks p flags) (queue.put p)
      have hput : p ∈ (paintParents flags parents (addMarks marks p flags) (queue.put p)).2.items :=
        h.queue_mono p (PrioQueue.mem_put.mpr (.inl rfl))
      refine ⟨fun x => ?_, fun q hq => ?_, fun x hx => ?_, fun x hx => ?_⟩
      · by_cases hxp : x = p
        · subst hxp
          refine .inr ⟨mem_cons_self, ?_, hput⟩
          rcases h.frame x with hx | ⟨-, hx, -⟩ <;> rw [hx, addMarks_self]
          exact Marks.union_union _ _
        · rcases h.frame x with hx | ⟨hx, hx', hx''⟩
          · exact .inl (hx.trans (addMarks_of_ne flags hxp))
          · rw [addMarks_of_ne flags hxp] at hx'
            exact .inr ⟨mem_cons_of_mem _ hx, hx', hx''⟩
      · rcases mem_cons.mp hq with rfl | hq
        · rcases h.frame q with hx | ⟨-, hx, -⟩ <;> rw [hx, addMarks_self]
          · exact Marks.contains_union _ _
          · exact Marks.contains_union _ _
        · exact h.painted q hq
      · exact h.queue_mono x (PrioQueue.mem_put.mpr (.inr hx))
      · rcases h.queue_new x hx with hx | hx
        · rcases PrioQueue.mem_put.mp hx with rfl | hx
          · exact .inr mem_cons_self
          · exact .inl hx
        · exact .inr (mem_cons_of_mem _ hx)

/-- A parent that is put in the queue pays for its place with a colour it lacked. -/
theorem paintParents_measure [Fintype α] (flags : Marks) (hflags : flags.result = false)
    (parents : List α) (marks : α → Marks) (queue : PrioQueue cmp) :
    (∑ x, lacking ((paintParents flags parents marks queue).1 x)) +
        (paintParents flags parents marks queue).2.items.length ≤
      (∑ x, lacking (marks x)) + queue.items.length := by
  induction parents generalizing marks queue with
  | nil => exact le_rfl
  | cons p parents ih =>
    unfold paintParents
    split_ifs with hp
    · exact ih marks queue
    refine (ih _ _).trans ?_
    have hdrop : (∑ x, lacking (addMarks marks p flags x)) + 1 ≤ ∑ x, lacking (marks x) := by
      apply sum_add_le_sum (c := p)
      · rw [addMarks_self]
        exact lacking_union hflags (by simpa using hp)
      · intro x hx
        rw [addMarks_of_ne flags hx]
    have hlen := (queue.put_items p).length_eq
    rw [length_cons] at hlen
    omega

omit [Std.TransCmp cmp] in
/-- Noting a merge gives no paint. -/
theorem lacking_noteMerge (marks : α → Marks) (result : List α) (c x : α) :
    lacking ((noteMerge marks result c).1 x) = lacking (marks x) := by
  unfold noteMerge
  split
  · change lacking (addMarks marks c { result := true } x) = _
    simp [lacking]
  · rfl

end Parents

end GitCore.Commit
