import GitCore.Commit.PaintInvariant
import Mathlib.Data.Fintype.EquivFin

/-! # Removing redundant commits

`remove_redundant` keeps the commits of an array that no other commit of the array reaches. It has
two ways to find them: `remove_redundant_no_gen` paints down from one commit at a time, and
`remove_redundant_with_gen` makes one walk over the ancestors of all of them, with a minimal
generation that moves up and an early end. Both are here as the code has them. -/

namespace GitCore.Commit

open Repository

variable {α : Type} [DecidableEq α]

/-! ## Painting pair by pair -/

/-- The variables of `remove_redundant_no_gen`. -/
structure NoGenState (α : Type) where
  /-- The flags of all commits. -/
  marks : α → Marks
  /-- `redundant` -/
  redundant : Nat → Bool

/-- The loop that fills `work` and `filled_index`. -/
def noGenWork (array : List α) (redundant : Nat → Bool) (i : Nat) : List (α × Nat) :=
  array.zipIdx.filter fun e => !decide (i = e.2) && !redundant e.2

/-- The smallest generation of a commit and of those in `work`. -/
def minGenerationOf (r : Repository α) (generation : Nat) (work : List α) : Nat :=
  work.foldl (fun m c => if r.generation c < m then r.generation c else m) generation

/-- What one paint says about `redundant`. -/
def noteRedundant (marks : α → Marks) (one : α) (i : Nat) (work : List (α × Nat))
    (redundant : Nat → Bool) : Nat → Bool :=
  work.foldl
    (fun red e => if (marks e.1).parent1 then Function.update red e.2 true else red)
    (if (marks one).parent2 then Function.update redundant i true else redundant)

/-- The loop of `remove_redundant_no_gen`, over the commits that are left with their positions. -/
def noGenLoop (r : Repository α) (fuel : Nat) (array : List α) :
    List (α × Nat) → NoGenState α → Except Halt (NoGenState α)
  | [], s => .ok s
  | (one, i) :: rest, s =>
    if s.redundant i then noGenLoop r fuel array rest s
    else
      let work := noGenWork array s.redundant i
      let twos := work.map Prod.fst
      match paintDownToCommon r fuel one twos (minGenerationOf r (r.generation one) twos)
        s.marks with
      | .error e => .error e
      | .ok (marks, _) =>
        match clearCommitMarks r.parents .all fuel marks one with
        | .error e => .error e
        | .ok marks₁ =>
          match clearCommitMarksMany r.parents .all fuel marks₁ twos with
          | .error e => .error e
          | .ok marks₂ =>
            noGenLoop r fuel array rest
              { marks := marks₂
                redundant := noteRedundant marks one i work s.redundant }

/-- `remove_redundant_no_gen`: the flags after it and the commits it moves to the front. For an
empty array the size of `filled_index` overflows. -/
def removeRedundantNoGen (r : Repository α) (fuel : Nat) (marks : α → Marks) (array : List α) :
    Except Halt ((α → Marks) × List α) :=
  if array = [] then .error .dies
  else
    match noGenLoop r fuel array array.zipIdx { marks := marks, redundant := fun _ => false } with
    | .error e => .error e
    | .ok s => .ok (s.marks, (array.zipIdx.filter fun e => !s.redundant e.2).map Prod.fst)

/-! ## One walk -/

/-- `flags &= ~flags'` -/
def dropMarks (marks : α → Marks) (c : α) (flags : Marks) : α → Marks :=
  Function.update marks c ((marks c).diff flags)

/-- The parents of one commit of the array: those without `STALE` get it and go to
`walk_start`. -/
def startParents : List α → (α → Marks) → List α → (α → Marks) × List α
  | [], marks, walkStart => (marks, walkStart)
  | p :: parents, marks, walkStart =>
    if (marks p).stale then startParents parents marks walkStart
    else startParents parents (addMarks marks p { stale := true }) (walkStart ++ [p])

/-- The loop that marks the commits of the array with `RESULT` and collects their parents. -/
def startTips (r : Repository α) : List α → (α → Marks) → List α → (α → Marks) × List α
  | [], marks, walkStart => (marks, walkStart)
  | c :: array, marks, walkStart =>
    let out := startParents (r.parents c) (addMarks marks c { result := true }) walkStart
    startTips r array out.1 out.2

/-- The variables of the walk. -/
structure WithGenState (α : Type) where
  /-- The flags of all commits. -/
  marks : α → Marks
  /-- `stack` -/
  stack : List α
  /-- `count_still_independent` -/
  countStillIndependent : Nat
  /-- `sorted` from `min_gen_pos` on. -/
  pending : List α
  /-- `min_generation` -/
  minGeneration : Nat

/-- The loop that moves `min_gen_pos` on over stale commits, but not past the last one. -/
def skipStale (marks : α → Marks) : List α → List α
  | [] => []
  | [c] => [c]
  | c :: d :: pending => if (marks c).stale then skipStale marks (d :: pending) else c :: d :: pending

/-- A commit of the array was reached: it is not independent, and if it was the one with the
smallest generation, that generation moves up. -/
def loseResult (r : Repository α) (s : WithGenState α) (c : α) : WithGenState α :=
  let marks := dropMarks s.marks c { result := true }
  let s := { s with marks := marks, countStillIndependent := s.countStillIndependent - 1 }
  if s.countStillIndependent ≤ 1 then s
  else if s.pending.head? = some c then
    let pending := skipStale marks s.pending
    { s with
      pending := pending
      minGeneration := match pending with
        | [] => s.minGeneration
        | d :: _ => r.generation d }
  else s

/-- The rest of a round: go to a parent without `STALE`, or back. -/
def goOn (r : Repository α) (s : WithGenState α) (c : α) (rest : List α) : WithGenState α :=
  if r.generation c < s.minGeneration then { s with stack := rest }
  else
    match (r.parents c).find? fun p => !(s.marks p).stale with
    | some p => { s with marks := addMarks s.marks p { stale := true }, stack := p :: c :: rest }
    | none => { s with stack := rest }

/-- The inner loop of the walk. -/
def staleWalk (r : Repository α) : Nat → WithGenState α → Except Halt (WithGenState α)
  | 0, _ => .error .fuel
  | fuel + 1, s =>
    match s.stack with
    | [] => .ok s
    | c :: rest =>
      if (s.marks c).result then
        let s' := loseResult r s c
        if s'.countStillIndependent ≤ 1 then .ok s'
        else staleWalk r fuel (goOn r s' c rest)
      else staleWalk r fuel (goOn r s c rest)

/-- The outer loop of the walk, over the start commits that are left, the last one first. -/
def staleWalks (r : Repository α) (fuel : Nat) :
    List α → WithGenState α → Except Halt (WithGenState α)
  | [], s => .ok s
  | w :: walkStart, s =>
    if s.countStillIndependent > 1 then
      match staleWalk r fuel
        { s with marks := addMarks s.marks w { stale := true }, stack := [w] } with
      | .error e => .error e
      | .ok s' => staleWalks r fuel walkStart s'
    else .ok s

/-- `remove_redundant_with_gen`: the flags after it and the commits it moves to the front. For an
empty array it reads `sorted[0]`, which is not there. -/
def removeRedundantWithGen (r : Repository α) (qsort : r.GenSort) (fuel : Nat) (marks : α → Marks)
    (array : List α) : Except Halt ((α → Marks) × List α) :=
  match qsort.sort array with
  | [] => .error .outOfBounds
  | first :: others =>
    let start := startTips r array marks []
    let walkStart := qsort.sort start.2
    let marks := walkStart.foldl (fun marks w => dropMarks marks w { stale := true }) start.1
    match staleWalks r fuel walkStart.reverse
      { marks := marks, stack := [], countStillIndependent := array.length,
        pending := first :: others, minGeneration := r.generation first } with
    | .error e => .error e
    | .ok s =>
      let marks := array.foldl (fun marks c => dropMarks marks c { result := true }) s.marks
      match clearCommitMarksMany r.parents { stale := true } fuel marks walkStart with
      | .error e => .error e
      | .ok marks' => .ok (marks', array.filter fun c => !(marks c).stale)

/-- `remove_redundant` -/
def removeRedundant (r : Repository α) (qsort : r.GenSort) (fuel : Nat) (marks : α → Marks)
    (array : List α) : Except Halt ((α → Marks) × List α) :=
  if r.generationNumbersEnabled &&
      array.any fun c => decide (r.generation c < generationNumberInfinity) then
    removeRedundantWithGen r qsort fuel marks array
  else removeRedundantNoGen r fuel marks array

/-! ## What is to be kept -/

/-- The commits of the array that no other commit of it reaches. -/
def Independent (r : Repository α) (array : List α) (x : α) : Prop :=
  x ∈ array ∧ ∀ y ∈ array, y ≠ x → ¬ r.Reaches y x

variable {r : Repository α} {array : List α}

section

omit [DecidableEq α]

/-- Another commit that reaches one is above it. -/
theorem independent_iff {x : α} :
    Independent r array x ↔ x ∈ array ∧ ∀ y ∈ array, ¬ r.Ancestor y x := by
  refine and_congr_right fun _ => forall₂_congr fun y _ => ?_
  constructor
  · intro h hanc
    refine h ?_ hanc.reaches
    rintro rfl
    exact hanc.irrefl
  · intro h hne hreach
    rcases hreach.eq_or_ancestor with rfl | hanc
    · exact hne rfl
    · exact h hanc

/-- Among finitely many commits, one that is above another is at or below a topmost one. -/
theorem exists_top_above [Finite α] {P : α → Prop} {x y : α} (hy : P y) (hyx : r.Ancestor y x) :
    ∃ z, P z ∧ (∀ w, P w → ¬ r.Ancestor w z) ∧ r.Ancestor z x := by
  -- going up from `y` ends, since there are finitely many commits and no cycle
  have hirrefl : Std.Irrefl r.Ancestor := ⟨fun _ h => h.irrefl⟩
  have htrans : IsTrans α r.Ancestor := ⟨fun _ _ _ h h' => h.trans_reaches h'.reaches⟩
  have hwf : WellFounded r.Ancestor := Finite.wellFounded_of_trans_of_irrefl r.Ancestor
  induction y using hwf.induction with
  | _ y ih =>
    by_cases h : ∃ z, P z ∧ r.Ancestor z y
    · obtain ⟨z, hz, hzy⟩ := h
      exact ih z hzy hz (hzy.trans_reaches hyx.reaches)
    · push Not at h
      exact ⟨y, hy, h, hyx⟩

/-- A commit of the array that is not independent is below one that is. -/
theorem exists_independent_above [Finite α] {x y : α} (hy : y ∈ array) (hyx : r.Ancestor y x) :
    ∃ z, Independent r array z ∧ r.Ancestor z x := by
  obtain ⟨z, hz, htop, hzx⟩ := exists_top_above hy hyx
  exact ⟨z, independent_iff.mpr ⟨hz, htop⟩, hzx⟩

end

end GitCore.Commit
