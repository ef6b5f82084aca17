import GitCore.Lib.Interval
import Mathlib.Algebra.Order.Ring.Int
import Mathlib.Data.List.Basic
import Mathlib.Data.List.TakeWhile

/-! # Range sets of the line log

A range set is a list of half-open ranges of line numbers. The union, the difference and the sorting
of what a user gave are loops with cursors; an assertion that fails is no result. -/

namespace GitCore.LineLog

open List
open GitCore.Interval (Canonical InOrder canonical_nil points points_append points_concat points_cons
  points_nil)

/-! ## The code -/

/-- `struct range`, with `stop` for the field `end`. -/
abbrev Range := Interval Int

/-- `struct range_set` -/
abbrev RangeSet := List Range

/-- `range_set_append_unsafe` -/
def rangeSetAppendUnsafe (rs : RangeSet) (a b : Int) : Option RangeSet :=
  if a ≤ b then some (rs ++ [⟨a, b⟩]) else none

/-- `range_set_append` -/
def rangeSetAppend (rs : RangeSet) (a b : Int) : Option RangeSet :=
  match rs.getLast? with
  | none => rangeSetAppendUnsafe rs a b
  | some last => if last.stop ≤ a then rangeSetAppendUnsafe rs a b else none

/-- What the loops of `sort_and_merge_range_set` and `range_set_union` do with the next range. -/
def addRange (out : RangeSet) (new : Range) : RangeSet :=
  if new.start = new.stop then out
  else
    match out.getLast? with
    | none => out ++ [new]
    | some last =>
      if last.stop < new.start then out ++ [new]
      else if last.stop < new.stop then out.dropLast ++ [⟨last.start, new.stop⟩]
      else out

/-- `range_set_check_invariants` -/
def rangeSetCheckInvariants : RangeSet → Bool
  | [] => true
  | [r] => decide (r.start < r.stop)
  | r :: s :: rest =>
    decide (r.start < r.stop) && decide (r.stop < s.start) && rangeSetCheckInvariants (s :: rest)

/-- `sort_and_merge_range_set` after its `QSORT`. -/
def mergeSorted (sorted : RangeSet) : Option RangeSet :=
  let out := sorted.foldl addRange []
  if out.length ≤ sorted.length ∧ rangeSetCheckInvariants out = true then some out else none

/-- `range_set_union`, with what was put out so far. -/
def unionLoop (out : RangeSet) : RangeSet → RangeSet → RangeSet
  | [], [] => out
  | ra :: a, rb :: b =>
    if ra.start < rb.start then unionLoop (addRange out ra) a (rb :: b)
    else if ra.start > rb.start then unionLoop (addRange out rb) (ra :: a) b
    else if ra.stop < rb.stop then unionLoop (addRange out ra) a (rb :: b)
    else unionLoop (addRange out rb) (ra :: a) b
  | ra :: a, [] => unionLoop (addRange out ra) a []
  | [], rb :: b => unionLoop (addRange out rb) [] b
termination_by a b => a.length + b.length

/-- `range_set_union` into an empty set. -/
def rangeSetUnion (a b : RangeSet) : RangeSet := unionLoop [] a b

/-- The loop of `range_set_difference` for one range, with the ranges of `b` from the cursor on: the
output and the cursor. -/
def differenceRange : Nat → Int → Int → RangeSet → RangeSet → Option (RangeSet × RangeSet)
  | 0, _, _, _, _ => none
  | fuel + 1, start, stop, b, out =>
    if start < stop then
      match b.dropWhile fun r => decide (start ≥ r.stop) with
      | [] => (rangeSetAppend out start stop).map fun out => (out, [])
      | r :: b =>
        if stop ≤ r.start then (rangeSetAppend out start stop).map fun out => (out, r :: b)
        else if start ≥ r.start then differenceRange fuel r.stop stop (r :: b) out
        else if stop > r.start then
          if start < r.start then
            match rangeSetAppend out start r.start with
            | none => none
            | some out => differenceRange fuel r.stop stop (r :: b) out
          else differenceRange fuel r.stop stop (r :: b) out
        else differenceRange fuel start stop (r :: b) out
    else some (out, b)

/-- The loop of `range_set_difference` over the ranges of `a`. -/
def differenceLoop : RangeSet → RangeSet → RangeSet → Option RangeSet
  | [], _, out => some out
  | r :: a, b, out =>
    match differenceRange (b.length + 1) r.start r.stop b out with
    | none => none
    | some (out, b) => differenceLoop a b out

/-- `range_set_difference` into an empty set. -/
def rangeSetDifference (a b : RangeSet) : Option RangeSet := differenceLoop a b []

/-! ## Sets of lines -/

/-- **A sorted range set**: the ranges are in the order of their starts and disjoint; empty ranges
are allowed. -/
structure Sorted (rs : RangeSet) : Prop where
  valid : ∀ r ∈ rs, r.start ≤ r.stop
  order : rs.Pairwise fun r s => r.start ≤ s.start ∧ ∀ x ∈ r.toSet, x ∉ s.toSet

variable {rs out a b dropped rest : RangeSet} {r s p : Range} {start stop x : Int}

/-- Disjoint ranges in the order of their starts, the second of which is not empty. -/
theorem stop_le_start_of_disjoint (hs : s.start < s.stop) (hstart : r.start ≤ s.start)
    (h : ∀ x ∈ r.toSet, x ∉ s.toSet) : r.stop ≤ s.start := by
  by_contra hlt
  exact h s.start (show s.start ∈ r.toSet from ⟨hstart, not_le.mp hlt⟩)
    (show s.start ∈ s.toSet from ⟨le_rfl, hs⟩)

theorem Sorted.starts (h : Sorted rs) : rs.Pairwise fun r s => r.start ≤ s.start :=
  h.order.imp And.left

theorem Sorted.tail (h : Sorted (r :: rs)) : Sorted rs :=
  ⟨(forall_mem_cons.mp h.valid).2, (pairwise_cons.mp h.order).2⟩

/-! ## Merging -/

/-- **One more range**, which does not start earlier, keeps the set canonical. -/
theorem addRange_spec {new : Range} (h : Canonical out)
    (hnew : new.start ≤ new.stop) (hstart : ∀ r ∈ out, r.start ≤ new.start) :
    Canonical (addRange out new) ∧
      points (addRange out new) = points out ∪ new.toSet ∧
      ∀ r ∈ addRange out new, r.start ≤ new.start := by
  unfold addRange
  by_cases hempty : new.start = new.stop
  · rw [if_pos hempty, Interval.toSet, Set.Ico_eq_empty hempty.not_lt, Set.union_empty]
    exact ⟨h, rfl, hstart⟩
  have hlt : new.start < new.stop := lt_of_le_of_ne hnew hempty
  rw [if_neg hempty]
  rcases eq_nil_or_concat' out with rfl | ⟨init, last, rfl⟩
  · refine ⟨Interval.canonical_nil.concat hlt (by simp), ?_, by simp⟩
    exact points_concat [] new
  rw [getLast?_concat, dropLast_concat]
  dsimp only
  have hlast : last.start ≤ new.start := hstart last (by simp)
  split
  · rename_i hgap
    exact ⟨h.concat hlt fun s hs => (h.stop_le hs).trans_lt hgap, points_concat _ _,
      forall_mem_append.mpr ⟨hstart, forall_mem_singleton.mpr le_rfl⟩⟩
  rename_i hgap
  have htouch := Interval.toSet_union_of_touch hlast (not_lt.mp hgap) hnew
  split_ifs with hlonger
  · refine ⟨h.extend hlonger, ?_, forall_mem_append.mpr
      ⟨(forall_mem_append.mp hstart).1, forall_mem_singleton.mpr hlast⟩⟩
    rw [points_concat, points_concat, Set.union_assoc, htouch, max_eq_right hlonger.le]
    rfl
  · refine ⟨h, ?_, hstart⟩
    rw [points_concat, Set.union_assoc, htouch, max_eq_left (not_lt.mp hlonger)]
    rfl

/-- A canonical set passes the check of the invariants. -/
theorem rangeSetCheckInvariants_of_canonical (h : Canonical rs) :
    rangeSetCheckInvariants rs = true := by
  induction rs with
  | nil => rfl
  | cons r rest ih =>
    have hrest : Canonical rest :=
      ⟨(forall_mem_cons.mp h.nonempty).2, (pairwise_cons.mp h.apart).2⟩
    have hr := h.nonempty r mem_cons_self
    cases rest with
    | nil => simp [rangeSetCheckInvariants, hr]
    | cons s rest =>
      have hrs := (pairwise_cons.mp h.apart).1 s mem_cons_self
      simp [rangeSetCheckInvariants, hr, hrs, ih hrest]

/-- The loop over sorted ranges. -/
theorem foldl_addRange_spec (h : Canonical out)
    (hvalid : ∀ r ∈ rs, r.start ≤ r.stop) (hsorted : rs.Pairwise fun r s => r.start ≤ s.start)
    (hstart : ∀ r ∈ out, ∀ s ∈ rs, r.start ≤ s.start) :
    Canonical (rs.foldl addRange out) ∧
      points (rs.foldl addRange out) = points out ∪ points rs := by
  induction rs generalizing out with
  | nil =>
    rw [points_nil, Set.union_empty]
    exact ⟨h, rfl⟩
  | cons r rs ih =>
    obtain ⟨hr, hrs⟩ := pairwise_cons.mp hsorted
    obtain ⟨hcanon, hlines, hstart'⟩ := addRange_spec h (hvalid r mem_cons_self)
      fun s hs => hstart s hs r mem_cons_self
    obtain ⟨hcanon', hlines'⟩ := ih hcanon (forall_mem_cons.mp hvalid).2 hrs
      fun s hs t ht => (hstart' s hs).trans (hr t ht)
    refine ⟨hcanon', ?_⟩
    rw [foldl_cons, hlines', hlines, points_cons, Set.union_assoc]

theorem length_addRange_le (out : RangeSet) (new : Range) :
    (addRange out new).length ≤ out.length + 1 := by
  unfold addRange
  rcases eq_nil_or_concat' out with rfl | ⟨init, last, rfl⟩
  · split <;> simp
  grind

theorem length_foldl_addRange_le (rs out : RangeSet) :
    (rs.foldl addRange out).length ≤ out.length + rs.length := by
  induction rs generalizing out with
  | nil => exact Nat.le_refl _
  | cons r rs ih =>
    have hrest := ih (addRange out r)
    have hone := length_addRange_le out r
    rw [foldl_cons, length_cons]
    omega

/-- **Sorting and merging** makes every list of ranges canonical, in whatever order equal starts are
sorted. -/
theorem mergeSorted_spec {sorted : RangeSet} (hvalid : ∀ r ∈ rs, r.start ≤ r.stop)
    (hperm : sorted.Perm rs) (hsorted : sorted.Pairwise fun r s => r.start ≤ s.start) :
    ∃ out, mergeSorted sorted = some out ∧ Canonical out ∧ points out = points rs := by
  obtain ⟨hcanon, hlines⟩ := @foldl_addRange_spec sorted [] canonical_nil
    (fun r hr => hvalid r (hperm.mem_iff.mp hr)) hsorted (by simp)
  refine ⟨_, ?_, hcanon, ?_⟩
  · have hlength := length_foldl_addRange_le sorted []
    rw [length_nil, Nat.zero_add] at hlength
    exact if_pos ⟨hlength, rangeSetCheckInvariants_of_canonical hcanon⟩
  · rw [hlines, points_nil, Set.empty_union]
    ext x
    exact exists_congr fun r => and_congr_left fun _ => hperm.mem_iff

/-! ## Union -/

/-- What the loop of the union needs of the output and the ranges that are left. -/
structure UnionState (out a b : RangeSet) : Prop where
  canonical : Canonical out
  valid : ∀ r ∈ a ++ b, r.start ≤ r.stop
  left : a.Pairwise fun r s => r.start ≤ s.start
  right : b.Pairwise fun r s => r.start ≤ s.start
  start_le : ∀ r ∈ out, ∀ s ∈ a ++ b, r.start ≤ s.start

/-- The sets change places. -/
theorem UnionState.swap (h : UnionState out a b) : UnionState out b a := by
  have hmem : ∀ s, s ∈ b ++ a → s ∈ a ++ b := fun s hs => by
    rw [mem_append] at hs ⊢
    exact hs.symm
  exact ⟨h.canonical, fun r hr => h.valid r (hmem r hr), h.right, h.left,
    fun r hr s hs => h.start_le r hr s (hmem s hs)⟩

/-- The first range of one set is taken, if it does not start later than the other set. -/
theorem UnionState.take {ra : Range} (h : UnionState out (ra :: a) b)
    (hfirst : ∀ s ∈ b, ra.start ≤ s.start) :
    UnionState (addRange out ra) a b ∧
      points (addRange out ra) ∪ (points a ∪ points b) = points out ∪ (points (ra :: a) ∪ points b) := by
  obtain ⟨hcanon, hlines, hstart⟩ := addRange_spec h.canonical (h.valid ra (by simp))
    fun r hr => h.start_le r hr ra (by simp)
  obtain ⟨hra, hsa⟩ := pairwise_cons.mp h.left
  refine ⟨⟨hcanon, fun r hr => h.valid r ?_, hsa, h.right, fun r hr s hs => (hstart r hr).trans ?_⟩,
    ?_⟩
  · rw [cons_append]
    exact mem_cons_of_mem _ hr
  · grind
  · rw [hlines]
    simp only [points_cons, Set.union_assoc]

/-- A start that is not later than the first one of a sorted set is not later than any. -/
theorem start_le_of_head {rb : Range}
    (h : (rb :: b).Pairwise fun r s => r.start ≤ s.start) (hx : x ≤ rb.start) :
    ∀ s ∈ rb :: b, x ≤ s.start := by
  intro s hs
  rcases mem_cons.mp hs with rfl | hs
  · exact hx
  · exact hx.trans ((pairwise_cons.mp h).1 s hs)

/-- **The loop of the union** adds the lines of both sets. -/
theorem unionLoop_spec (h : UnionState out a b) :
    Canonical (unionLoop out a b) ∧
      points (unionLoop out a b) = points out ∪ (points a ∪ points b) := by
  fun_induction unionLoop out a b with
  | case1 out =>
    refine ⟨h.canonical, ?_⟩
    simp
  | case2 out ra a rb b hlt ih =>
    obtain ⟨hnext, hlines⟩ := h.take (start_le_of_head h.right hlt.le)
    rw [← hlines]
    exact ih hnext
  | case3 out ra a rb b hnlt hgt ih =>
    obtain ⟨hnext, hlines⟩ := h.swap.take (start_le_of_head h.left (le_of_lt hgt))
    rw [Set.union_comm (points (ra :: a)), ← hlines, Set.union_comm (points b)]
    exact ih hnext.swap
  | case4 out ra a rb b hnlt hngt hshort ih =>
    obtain ⟨hnext, hlines⟩ := h.take (start_le_of_head h.right (not_lt.mp hngt))
    rw [← hlines]
    exact ih hnext
  | case5 out ra a rb b hnlt hngt hlong ih =>
    obtain ⟨hnext, hlines⟩ := h.swap.take (start_le_of_head h.left (not_lt.mp hnlt))
    rw [Set.union_comm (points (ra :: a)), ← hlines, Set.union_comm (points b)]
    exact ih hnext.swap
  | case6 out ra a ih =>
    obtain ⟨hnext, hlines⟩ := h.take (by simp)
    rw [← hlines]
    exact ih hnext
  | case7 out rb b ih =>
    obtain ⟨hnext, hlines⟩ := h.swap.take (by simp)
    rw [Set.union_comm (points []), ← hlines, Set.union_comm (points b)]
    exact ih hnext.swap

/-- **The union** of sorted sets is canonical and has the lines of both. -/
theorem rangeSetUnion_spec (ha : Sorted a) (hb : Sorted b) :
    Canonical (rangeSetUnion a b) ∧
      points (rangeSetUnion a b) = points a ∪ points b := by
  have hvalid : ∀ r ∈ a ++ b, r.start ≤ r.stop := fun r hr =>
    (mem_append.mp hr).elim (ha.valid r) (hb.valid r)
  obtain ⟨hcanon, hlines⟩ := @unionLoop_spec [] a b
    ⟨canonical_nil, hvalid, ha.starts, hb.starts, by simp⟩
  rw [points_nil, Set.empty_union] at hlines
  exact ⟨hcanon, hlines⟩

/-! ## Difference -/

/-- The output of the difference so far: ranges in order, none of them empty. -/
structure Pieces (out : RangeSet) : Prop where
  nonempty : ∀ p ∈ out, p.start < p.stop
  order : InOrder out

/-- An append behind the last range passes the assertions. -/
theorem rangeSetAppend_eq {a b : Int} (hab : a ≤ b)
    (hbehind : ∀ p ∈ out, p.stop ≤ a) : rangeSetAppend out a b = some (out ++ [⟨a, b⟩]) := by
  unfold rangeSetAppend rangeSetAppendUnsafe
  grind

/-- One more piece. -/
theorem Pieces.append (h : Pieces out) {a b : Int} (hab : a < b)
    (hbehind : ∀ p ∈ out, p.stop ≤ a) : Pieces (out ++ [⟨a, b⟩]) := by
  refine ⟨forall_mem_append.mpr ⟨h.nonempty, forall_mem_singleton.mpr hab⟩,
    pairwise_append.mpr ⟨h.order, pairwise_singleton _ _, fun p hp => ?_⟩⟩
  exact forall_mem_singleton.mpr (hbehind p hp)

/-- A range lies on one side of another one. -/
def Beside (p r : Range) : Prop := r.stop ≤ p.start ∨ p.stop ≤ r.start

/-- What the difference makes of one range: pieces of it beside all ranges of `b` that cover what is
not in `b`. -/
structure Cut (b : RangeSet) (start stop : Int) (new : RangeSet) : Prop where
  within : ∀ p ∈ new, start ≤ p.start ∧ p.stop ≤ stop
  beside : ∀ p ∈ new, ∀ r ∈ b, Beside p r
  covers : ∀ x, start ≤ x → x < stop → x ∉ points b → x ∈ points new

/-- The cursor moves over ranges that stop before the start. -/
theorem exists_dropped (b : RangeSet) (start : Int) :
    ∃ dropped, b = dropped ++ b.dropWhile (fun r => decide (start ≥ r.stop)) ∧
      (∀ r ∈ dropped, r.stop ≤ start) ∧
      ∀ r ∈ (b.dropWhile fun r => decide (start ≥ r.stop)).head?, start < r.stop := by
  refine ⟨b.takeWhile fun r => decide (start ≥ r.stop), takeWhile_append_dropWhile.symm,
    fun r hr => ?_, fun r hr => ?_⟩
  · simpa using mem_takeWhile_imp hr
  have hnot := head?_dropWhile_not (fun r : Range => decide (start ≥ r.stop)) b
  rw [Option.mem_def.mp hr] at hnot
  simpa using hnot

/-- The rest of the range is one piece. -/
theorem Cut.single
    (hdropped : ∀ r ∈ dropped, r.stop ≤ start) (hrest : ∀ r ∈ rest, stop ≤ r.start) :
    Cut (dropped ++ rest) start stop [⟨start, stop⟩] := by
  refine ⟨fun p hp => ?_, fun p hp r hr => ?_, fun x hx hx' _ => ?_⟩
  · rw [mem_singleton.mp hp]
    exact ⟨le_rfl, le_rfl⟩
  · rw [mem_singleton.mp hp]
    rcases mem_append.mp hr with hr | hr
    · exact .inl (hdropped r hr)
    · exact .inr (hrest r hr)
  · exact ⟨_, mem_singleton_self _, hx, hx'⟩

/-- The loop goes on behind a range of `b`. -/
theorem Cut.behind {first new : RangeSet}
    (hdropped : ∀ r ∈ dropped, r.stop ≤ start) (hr : start < r.stop)
    (hfirst : first = [] ∧ r.start ≤ start ∨
      first = [⟨start, r.start⟩] ∧ r.start ≤ stop ∧ ∀ s ∈ r :: rest, r.start ≤ s.start)
    (hnew : Cut (r :: rest) r.stop stop new) :
    Cut (dropped ++ r :: rest) start stop (first ++ new) := by
  have hcovers : ∀ x, start ≤ x → x < stop → x ∉ points (dropped ++ r :: rest) → x ∉ points first →
      r.start ≤ x → x ∈ points new := by
    intro x hx hx' hnot hnot' hrx
    rw [points_append, Set.mem_union, not_or] at hnot
    refine hnew.covers x (not_lt.mp fun hxs => hnot.2 ?_) hx' hnot.2
    exact ⟨r, mem_cons_self, hrx, hxs⟩
  have hbehind : ∀ p ∈ new, start ≤ p.start := fun p hp => hr.le.trans (hnew.within p hp).1
  refine ⟨fun p hp => ?_, fun p hp s hs => ?_, fun x hx hx' hnot => ?_⟩
  · rcases mem_append.mp hp with hp | hp
    · grind
    · exact ⟨hbehind p hp, (hnew.within p hp).2⟩
  · rcases mem_append.mp hp with hp | hp
    · obtain ⟨rfl, -⟩ | ⟨rfl, -, hlater⟩ := hfirst
      · exact absurd hp not_mem_nil
      rw [mem_singleton.mp hp]
      rcases mem_append.mp hs with hs | hs
      · exact .inl (hdropped s hs)
      · exact .inr (hlater s hs)
    · rcases mem_append.mp hs with hs | hs
      · exact .inl ((hdropped s hs).trans (hbehind p hp))
      · exact hnew.beside p hp s hs
  · rw [points_append]
    by_cases hin : x ∈ points first
    · exact .inl hin
    refine .inr (hcovers x hx hx' hnot hin ?_)
    obtain ⟨-, hle⟩ | ⟨rfl, -, -⟩ := hfirst
    · exact hle.trans hx
    · exact not_lt.mp fun hlt => hin ⟨_, mem_singleton_self _, hx, hlt⟩

/-- **The difference for one range**: it cuts the range, and the cursor moves over ranges that stop
before the range does. -/
theorem differenceRange_spec (fuel : Nat)
    (hfuel : (b.dropWhile fun r => decide (start ≥ r.stop)).length < fuel)
    (hvalid : ∀ r ∈ b, r.start ≤ r.stop) (hsorted : b.Pairwise fun r s => r.start ≤ s.start)
    (hout : Pieces out) (hbehind : ∀ p ∈ out, p.stop ≤ start) :
    ∃ new b', differenceRange fuel start stop b out = some (out ++ new, b') ∧
      Pieces (out ++ new) ∧ Cut b start stop new ∧
      ∃ dropped, b = dropped ++ b' ∧ ∀ r ∈ dropped, r.stop ≤ stop := by
  induction fuel generalizing start b out with
  | zero => omega
  | succ fuel ih =>
    rw [differenceRange]
    split_ifs with hlt
    · obtain ⟨dropped, hb, hdropped, hhead⟩ := exists_dropped b start
      generalize (b.dropWhile fun r => decide (start ≥ r.stop)) = rest at hfuel hb hhead
      subst hb
      have hdropped' : ∀ r ∈ dropped, r.stop ≤ stop := fun r hr => (hdropped r hr).trans hlt.le
      have hlast := rangeSetAppend_eq hlt.le hbehind
      cases rest with
      | nil =>
        rw [hlast]
        exact ⟨_, _, rfl, hout.append hlt hbehind,
          Cut.single hdropped (by simp), dropped, rfl, hdropped'⟩
      | cons r rest =>
        dsimp only
        have hr : start < r.stop := hhead r rfl
        have hsorted' := (pairwise_append.mp hsorted).2.1
        have hlater : ∀ s ∈ r :: rest, r.start ≤ s.start := start_le_of_head hsorted' le_rfl
        split
        · rename_i hbefore
          rw [hlast]
          exact ⟨_, _, rfl, hout.append hlt hbehind,
            Cut.single hdropped fun s hs => hbefore.trans (hlater s hs), dropped, rfl, hdropped'⟩
        rename_i hbefore
        have hnext : ((r :: rest).dropWhile fun s => decide (r.stop ≥ s.stop)).length < fuel := by
          have hle := (dropWhile_suffix (l := rest)
            (fun s : Range => decide (r.stop ≥ s.stop))).length_le
          rw [length_cons] at hfuel
          rw [dropWhile_cons_of_pos (by simp)]
          omega
        have hvalid' : ∀ s ∈ r :: rest, s.start ≤ s.stop := fun s hs =>
          hvalid s (mem_append_right _ hs)
        split
        · rename_i hin
          obtain ⟨new, b', hsome, hpieces, hcut, d, hd, hdstop⟩ := ih hnext hvalid' hsorted' hout
            fun p hp => (hbehind p hp).trans hr.le
          have hcut' := Cut.behind hdropped hr (.inl ⟨rfl, hin⟩) hcut
          grind
        · rename_i hin
          rw [if_pos (not_le.mp hbefore), if_pos (not_le.mp hin),
            rangeSetAppend_eq (not_le.mp hin).le hbehind]
          obtain ⟨new, b', hsome, hpieces, hcut, d, hd, hdstop⟩ := ih hnext hvalid' hsorted'
            (hout.append (not_le.mp hin) hbehind) (forall_mem_append.mpr
              ⟨fun p hp => (hbehind p hp).trans hr.le,
                forall_mem_singleton.mpr (hvalid' r mem_cons_self)⟩)
          rw [append_assoc] at hsome hpieces
          refine ⟨_, b', hsome, hpieces, Cut.behind hdropped hr
            (.inr ⟨rfl, (not_le.mp hbefore).le, hlater⟩) hcut, dropped ++ d, ?_, ?_⟩
          · rw [hd, append_assoc]
          · exact fun s hs => (mem_append.mp hs).elim (hdropped' s) (hdstop s)
    · refine ⟨[], b, by rw [append_nil], by rwa [append_nil],
        ⟨by simp, by simp, fun x hx hx' _ => absurd (hx.trans_lt hx') hlt⟩, [], rfl, by simp⟩

/-- What the difference makes of a whole set. -/
structure CutSet (a b new : RangeSet) : Prop where
  within : ∀ p ∈ new, ∃ r ∈ a, r.start ≤ p.start ∧ p.stop ≤ r.stop
  beside : ∀ p ∈ new, ∀ r ∈ b, Beside p r
  covers : ∀ x ∈ points a, x ∉ points b → x ∈ points new

/-- **The loop of the difference** over the ranges of `a`, when the cursor went over ranges that
stop before all of them. -/
theorem differenceLoop_spec (ha : Sorted a)
    (hvalid : ∀ r ∈ b, r.start ≤ r.stop) (hsorted : b.Pairwise fun r s => r.start ≤ s.start)
    (hdropped : ∀ r ∈ dropped, ∀ s ∈ a, s.start < s.stop → r.stop ≤ s.start) (hout : Pieces out)
    (hbehind : ∀ p ∈ out, ∀ s ∈ a, s.start < s.stop → p.stop ≤ s.start) :
    ∃ new, differenceLoop a b out = some (out ++ new) ∧ Pieces (out ++ new) ∧
      CutSet a (dropped ++ b) new := by
  induction a generalizing b dropped out with
  | nil => exact ⟨[], by rw [append_nil, differenceLoop], by rwa [append_nil],
      ⟨by simp, by simp, by simp⟩⟩
  | cons r a ih =>
    obtain ⟨hra, -⟩ := pairwise_cons.mp ha.order
    rw [differenceLoop]
    by_cases hempty : r.start < r.stop
    · have hlater : ∀ s ∈ a, s.start < s.stop → r.stop ≤ s.start := fun s hs hlt =>
        stop_le_start_of_disjoint hlt (hra s hs).1 (hra s hs).2
      have hfuel := (dropWhile_suffix (l := b)
        (fun s : Range => decide (r.start ≥ s.stop))).length_le
      obtain ⟨first, b', hsome, hpieces, hcut, d, rfl, hd⟩ := @differenceRange_spec out b
        r.start r.stop (b.length + 1) (by omega) hvalid hsorted hout
        fun p hp => hbehind p hp r mem_cons_self hempty
      rw [hsome]
      have hdropped' : ∀ s ∈ dropped ++ d, ∀ t ∈ a, t.start < t.stop → s.stop ≤ t.start := by
        grind
      have hbehind' : ∀ p ∈ out ++ first, ∀ t ∈ a, t.start < t.stop → p.stop ≤ t.start := by
        intro p hp t ht hlt
        rcases mem_append.mp hp with hp | hp
        · exact hbehind p hp t (mem_cons_of_mem _ ht) hlt
        · exact (hcut.within p hp).2.trans (hlater t ht hlt)
      obtain ⟨new, hsome', hpieces', hcut'⟩ := @ih (out ++ first) b' (dropped ++ d) ha.tail
        (fun s hs => hvalid s (mem_append_right _ hs)) (pairwise_append.mp hsorted).2.1
        hdropped' hpieces hbehind'
      rw [append_assoc] at hsome' hpieces' hcut'
      refine ⟨first ++ new, hsome', hpieces', ⟨fun p hp => ?_, fun p hp s hs => ?_,
        fun x hx hnot => ?_⟩⟩
      · rcases mem_append.mp hp with hp | hp
        · exact ⟨r, mem_cons_self, hcut.within p hp⟩
        · obtain ⟨s, hs, hps⟩ := hcut'.within p hp
          exact ⟨s, mem_cons_of_mem _ hs, hps⟩
      · rcases mem_append.mp hp with hp | hp
        · rcases mem_append.mp hs with hs | hs
          · exact .inl ((hdropped s hs r mem_cons_self hempty).trans (hcut.within p hp).1)
          · exact hcut.beside p hp s hs
        · exact hcut'.beside p hp s hs
      · rw [points_append]
        rw [points_cons] at hx
        rcases hx with hx | hx
        · refine .inl (hcut.covers x hx.1 hx.2 fun hb => hnot ?_)
          rw [points_append]
          exact .inr hb
        · exact .inr (hcut'.covers x hx hnot)
    · -- an empty range is passed over
      rw [differenceRange, if_neg hempty]
      obtain ⟨new, hsome, hpieces, hcut⟩ := ih ha.tail hvalid hsorted
        (fun s hs t ht => hdropped s hs t (mem_cons_of_mem _ ht)) hout
        fun p hp t ht => hbehind p hp t (mem_cons_of_mem _ ht)
      refine ⟨new, hsome, hpieces, ⟨fun p hp => ?_, hcut.beside, fun x hx hnot => ?_⟩⟩
      · obtain ⟨s, hs, hps⟩ := hcut.within p hp
        exact ⟨s, mem_cons_of_mem _ hs, hps⟩
      rw [points_cons] at hx
      rcases hx with hx | hx
      · exact absurd (hx.1.trans_lt hx.2) hempty
      · exact hcut.covers x hx hnot

/-- Pieces are sorted and disjoint. -/
theorem Pieces.sorted (h : Pieces out) : Sorted out := by
  refine ⟨fun p hp => (h.nonempty p hp).le, h.order.imp_of_mem fun {p q} hp hq hpq => ⟨?_, ?_⟩⟩
  · exact (h.nonempty p hp).le.trans hpq
  · exact fun x hx hx' => absurd (hx.2.trans_le (hpq.trans hx'.1)) (lt_irrefl x)

/-- A range beside another one shares no line with it. -/
theorem Beside.not_mem (h : Beside p r) (hx : x ∈ p.toSet) : x ∉ r.toSet := by
  intro hx'
  rw [Interval.mem_toSet] at hx hx'
  rcases h with h | h <;> omega

/-- **The difference** of sorted sets: no assertion fails, and the pieces have the lines of `a` that
are not in `b`. -/
theorem rangeSetDifference_spec (ha : Sorted a) (hb : Sorted b) :
    ∃ out, rangeSetDifference a b = some out ∧ Pieces out ∧ CutSet a b out ∧
      points out = points a \ points b := by
  obtain ⟨out, hsome, hpieces, hcut⟩ := @differenceLoop_spec [] a b [] ha hb.valid hb.starts (by simp)
    ⟨by simp, .nil⟩ (by simp)
  refine ⟨out, hsome, hpieces, hcut, Set.ext fun x => ⟨?_, fun hx => hcut.covers x hx.1 hx.2⟩⟩
  rintro ⟨p, hp, hx⟩
  obtain ⟨r, hr, hpr⟩ := hcut.within p hp
  refine ⟨⟨r, hr, hpr.1.trans hx.1, hx.2.trans_le hpr.2⟩, ?_⟩
  rintro ⟨s, hs, hxs⟩
  exact (hcut.beside p hp s hs).not_mem hx hxs

end GitCore.LineLog
