import Mathlib.Order.Interval.Set.Disjoint

/-! # Lists of half-open intervals

Intervals with a start that belongs to them and a stop that does not, and the set that a list of
them denotes. A list is canonical if its intervals are not empty, in order, and not even adjacent.
-/

namespace GitCore

open List

universe u

variable {α : Type u} [LinearOrder α]

/-- An interval, without its stop. -/
structure Interval (α : Type u) where
  start : α
  stop : α
deriving DecidableEq, Repr

namespace Interval

/-- The points of an interval. -/
def toSet (r : Interval α) : Set α := Set.Ico r.start r.stop

/-- The points of a list of intervals. -/
def points (l : List (Interval α)) : Set α := { x | ∃ r ∈ l, x ∈ r.toSet }

/-- **Canonical**: not empty, in order and not adjacent. -/
structure Canonical (l : List (Interval α)) : Prop where
  nonempty : ∀ r ∈ l, r.start < r.stop
  apart : l.Pairwise fun r s => r.stop < s.start

/-- In order, with adjacent intervals allowed. -/
def InOrder (l : List (Interval α)) : Prop := l.Pairwise fun r s => r.stop ≤ s.start

variable {r : Interval α}

theorem mem_toSet {x : α} : x ∈ r.toSet ↔ r.start ≤ x ∧ x < r.stop := Iff.rfl

@[simp] theorem points_nil : points ([] : List (Interval α)) = ∅ := by
  ext x
  simp [points]

theorem points_cons (r : Interval α) (l : List (Interval α)) :
    points (r :: l) = r.toSet ∪ points l := by
  ext x
  simp [points]

theorem points_append (l l' : List (Interval α)) : points (l ++ l') = points l ∪ points l' := by
  ext x
  simp [points, or_and_right, exists_or]

theorem points_concat (l : List (Interval α)) (r : Interval α) :
    points (l ++ [r]) = points l ∪ r.toSet := by
  rw [points_append, points_cons, points_nil, Set.union_empty]

theorem canonical_nil : Canonical ([] : List (Interval α)) := ⟨by simp, .nil⟩

variable {l : List (Interval α)} {last : Interval α}

/-- The last interval of a canonical list stops last. -/
theorem Canonical.stop_le (h : Canonical (l ++ [last])) (hr : r ∈ l ++ [last]) :
    r.stop ≤ last.stop := by
  rcases mem_append.mp hr with hr | hr
  · have hlast := h.nonempty last (by simp)
    have := (pairwise_append.mp h.apart).2.2 r hr last (mem_singleton_self _)
    exact (this.trans hlast).le
  · rw [mem_singleton.mp hr]

/-- A further interval behind a gap. -/
theorem Canonical.concat (h : Canonical l) (hr : r.start < r.stop)
    (hgap : ∀ s ∈ l, s.stop < r.start) : Canonical (l ++ [r]) := by
  refine ⟨forall_mem_append.mpr ⟨h.nonempty, forall_mem_singleton.mpr hr⟩,
    pairwise_append.mpr ⟨h.apart, pairwise_singleton _ _, fun s hs => ?_⟩⟩
  exact forall_mem_singleton.mpr (hgap s hs)

/-- The last interval may stop later. -/
theorem Canonical.extend (h : Canonical (l ++ [last])) {stop : α}
    (hstop : last.stop < stop) : Canonical (l ++ [⟨last.start, stop⟩]) := by
  obtain ⟨hl, -, hcross⟩ := pairwise_append.mp h.apart
  have hlast := h.nonempty last (by simp)
  refine Canonical.concat ⟨fun r hr => h.nonempty r (mem_append_left _ hr), hl⟩
    (hlast.trans hstop) fun s hs => ?_
  exact hcross s hs last (mem_singleton_self _)

/-- Intervals that touch make one interval. -/
theorem toSet_union_of_touch {s : Interval α} (hstart : r.start ≤ s.start)
    (htouch : s.start ≤ r.stop) (hs : s.start ≤ s.stop) :
    r.toSet ∪ s.toSet = Set.Ico r.start (max r.stop s.stop) := by
  rw [toSet, toSet, Set.Ico_union_Ico' htouch (hstart.trans hs), min_eq_left hstart]

end Interval

end GitCore
