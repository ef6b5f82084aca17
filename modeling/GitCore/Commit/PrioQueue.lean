import GitCore.Lib.BinaryHeap

/-! # The priority queue

`prio_queue` keeps things in a binary heap, ordered by a comparison and, where that calls two
things equal, by the time they were put in. The heap order is a field of the queue, so that a
queue out of order cannot be built: `put` and `get` keep it by the heap library's rules for their
own test and their own choice of a child. -/

namespace GitCore.Commit

open BinaryHeap

variable {α : Type}

/-! ## Comparing two slots -/

/-- The comparison of two entries: the one of their data, then the one of their counters. -/
def entryCompare (cmp : α → α → Ordering) : Nat × α → Nat × α → Ordering :=
  compareLex (fun a b => cmp a.2 b.2) (compareOn Prod.fst)

/-- The order the heap keeps. -/
def EntryLe (cmp : α → α → Ordering) (a b : Nat × α) : Prop := (entryCompare cmp a b).isLE

/-- `compare` of two slots. -/
def compareAt (cmp : α → α → Ordering) (a : Array (Nat × α)) (i j : Nat) : Ordering :=
  match a[i]?, a[j]? with
  | some x, some y => entryCompare cmp x y
  | _, _ => .eq

/-- The end of the loop of `prio_queue_put`: the parent does not come after its child. -/
def putStop (cmp : α → α → Ordering) (p c : Nat × α) : Bool := (entryCompare cmp p c).isLE

/-- The step of `sift_down_root`: the child to swap with, the right one unless the left one comes
before it. -/
def siftPick (cmp : α → α → Ordering) (a : Array (Nat × α)) (ix : Nat) : Option Nat :=
  if 2 * ix + 1 < a.size then
    let child :=
      if 2 * ix + 2 < a.size ∧ (compareAt cmp a (2 * ix + 1) (2 * ix + 2)).isGE then 2 * ix + 2
      else 2 * ix + 1
    if (compareAt cmp a ix child).isLE then none else some child
  else none

/-- Comparing by what a function reads keeps the laws of a comparison. -/
theorem transCmp_on {β : Type} (cmp : α → α → Ordering) [Std.TransCmp cmp] (f : β → α) :
    Std.TransCmp fun a b => cmp (f a) (f b) where
  eq_swap := Std.OrientedCmp.eq_swap
  isLE_trans := Std.TransCmp.isLE_trans

section Lawful

variable {cmp : α → α → Ordering} [Std.TransCmp cmp]

instance : Std.TransCmp (entryCompare cmp) := by
  have := transCmp_on cmp (Prod.snd : Nat × α → α)
  exact inferInstanceAs (Std.TransCmp (compareLex _ _))

instance : IsTrans (Nat × α) (EntryLe cmp) :=
  ⟨fun _ _ _ => Std.TransCmp.isLE_trans⟩

instance : Std.Refl (EntryLe cmp) :=
  ⟨fun a => by simp [EntryLe, Std.ReflCmp.compare_self]⟩

/-- An entry that does not come before another comes after it. -/
theorem EntryLe.of_not {a b : Nat × α} (h : ¬ EntryLe cmp a b) : EntryLe cmp b a := by
  unfold EntryLe at h ⊢
  rw [← Std.OrientedCmp.isGE_iff_isLE]
  revert h
  cases entryCompare cmp a b <;> simp

omit [Std.TransCmp cmp] in
/-- The order of two entries is the one of their data first. -/
theorem EntryLe.data {a b : Nat × α} (h : EntryLe cmp a b) : (cmp a.2 b.2).isLE := by
  change ((cmp a.2 b.2).then (compareOn Prod.fst a b)).isLE at h
  revert h
  cases cmp a.2 b.2 <;> simp

omit [Std.TransCmp cmp] in
/-- `compare` reads two slots. -/
theorem compareAt_eq {a : Array (Nat × α)} {i j : Nat} {x y : Nat × α} (hx : a[i]? = some x)
    (hy : a[j]? = some y) : compareAt cmp a i j = entryCompare cmp x y := by
  simp only [compareAt, hx, hy]

/-- The end of the loop of `prio_queue_put` leaves parent and child in order. -/
theorem putStop_spec : StopSpec (EntryLe cmp) (putStop cmp) where
  stop_rel := fun _ _ h => h
  swap_rel := fun p c h => EntryLe.of_not (by
    unfold putStop at h
    simp [EntryLe, h])

/-- The child that `sift_down_root` compares with: the right one if it comes first. -/
def FirstChild (cmp : α → α → Ordering) (a : Array (Nat × α)) (ix child : Nat) : Prop :=
  child = 2 * ix + 2 ∧ 2 * ix + 2 < a.size ∧ (compareAt cmp a (2 * ix + 1) (2 * ix + 2)).isGE ∨
    child = 2 * ix + 1 ∧ (2 * ix + 2 < a.size →
      ¬ (compareAt cmp a (2 * ix + 1) (2 * ix + 2)).isGE)

omit [Std.TransCmp cmp] in
/-- The choice of `sift_down_root`: nothing without children or in order already, otherwise the
child that comes first. -/
theorem siftPick_cases (cmp : α → α → Ordering) (a : Array (Nat × α)) (ix : Nat) :
    siftPick cmp a ix = none ∧ a.size ≤ 2 * ix + 1 ∨
      ∃ child, 2 * ix + 1 < a.size ∧
        (siftPick cmp a ix = none ∧ (compareAt cmp a ix child).isLE ∨
          siftPick cmp a ix = some child ∧ ¬ (compareAt cmp a ix child).isLE) ∧
        FirstChild cmp a ix child := by
  unfold siftPick
  by_cases hleft : 2 * ix + 1 < a.size
  · right
    simp only [hleft, if_true]
    by_cases hright : 2 * ix + 2 < a.size ∧ (compareAt cmp a (2 * ix + 1) (2 * ix + 2)).isGE
    · refine ⟨2 * ix + 2, trivial, ?_, .inl ⟨rfl, hright⟩⟩
      grind
    · refine ⟨2 * ix + 1, trivial, ?_, .inr ⟨rfl, fun h h' => hright ⟨h, h'⟩⟩⟩
      grind
  · exact .inl ⟨if_neg hleft, by omega⟩

variable {a : Array (Nat × α)} {ix child j : Nat} {x y : Nat × α}

omit [Std.TransCmp cmp] in
/-- A child that is chosen. -/
theorem siftPick_eq_some (h : siftPick cmp a ix = some child) : 2 * ix + 1 < a.size ∧
    ¬ (compareAt cmp a ix child).isLE ∧ FirstChild cmp a ix child := by
  rcases siftPick_cases cmp a ix with ⟨hnone, -⟩ | ⟨c, hleft, ⟨hnone, -⟩ | ⟨hpick, hle⟩, hchild⟩
  · rw [h] at hnone
    cases hnone
  · rw [h] at hnone
    cases hnone
  grind

/-- The child that `sift_down_root` compares with comes before its sibling. -/
theorem siftPick_sibling (hchild : FirstChild cmp a ix child) (hj : 0 < j) (hpar : (j - 1) / 2 = ix)
    (hne : j ≠ child) (hx : a[child]? = some x) (hy : a[j]? = some y) : EntryLe cmp x y := by
  have hlt := (Array.getElem?_eq_some_iff.mp hy).1
  rcases hchild with ⟨rfl, -, hge⟩ | ⟨rfl, hlt'⟩
  · obtain rfl : j = 2 * ix + 1 := by omega
    rw [compareAt_eq hy hx] at hge
    exact Std.OrientedCmp.isGE_iff_isLE.mp hge
  · obtain rfl : j = 2 * ix + 2 := by omega
    have hge := hlt' hlt
    rw [compareAt_eq hx hy, Std.OrientedCmp.isGE_iff_isLE] at hge
    exact EntryLe.of_not hge

/-- The choice of `sift_down_root` is a first child. -/
theorem siftPick_spec : PickSpec (EntryLe cmp) (siftPick cmp) where
  none_rel := fun a ix h j x y hj hpar hx hy => by
    have hlt := (Array.getElem?_eq_some_iff.mp hy).1
    rcases siftPick_cases cmp a ix with ⟨-, hsize⟩ | ⟨child, hleft, hpick, hchild⟩
    · omega
    rcases hpick with ⟨-, hle⟩ | ⟨hpick, -⟩
    · obtain ⟨z, hz⟩ : ∃ z, a[child]? = some z :=
        ⟨_, Array.getElem?_eq_getElem (by rcases hchild with h | h <;> omega)⟩
      rw [compareAt_eq hx hz] at hle
      by_cases hne : j = child
      · obtain rfl : y = z := by grind
        exact hle
      · exact Std.TransCmp.isLE_trans hle (siftPick_sibling hchild hj hpar hne hz hy)
    · rw [h] at hpick
      cases hpick
  child := fun a ix c h => by
    obtain ⟨hleft, -, hchild⟩ := siftPick_eq_some h
    rcases hchild with hchild | hchild <;> omega
  some_rel := fun a ix c x y h hx hy => by
    obtain ⟨-, hle, -⟩ := siftPick_eq_some h
    rw [compareAt_eq hy hx] at hle
    exact EntryLe.of_not hle
  sibling := fun a ix c h j x y hj hne hpar hx hy =>
    siftPick_sibling (siftPick_eq_some h).2.2 hj hpar hne hx hy

end Lawful

/-! ## The queue -/

/-- `struct prio_queue` with a comparison. -/
structure PrioQueue (cmp : α → α → Ordering) where
  /-- The entries, each with the counter it got when it was put in. -/
  array : Array (Nat × α)
  /-- `insertion_ctr` -/
  insertionCtr : Nat
  /-- No entry comes after the ones below it. -/
  ordered : Ordered (EntryLe cmp) array

namespace PrioQueue

variable {cmp : α → α → Ordering}

/-- `{ compare }`: a queue without entries. -/
def empty (cmp : α → α → Ordering) : PrioQueue cmp where
  array := #[]
  insertionCtr := 0
  ordered := fun _ _ _ _ hx => by simp at hx

/-- The things in the queue. -/
def items (q : PrioQueue cmp) : List α := q.array.toList.map Prod.snd

@[simp] theorem items_empty : (empty cmp).items = [] := rfl

variable [Std.TransCmp cmp] {q : PrioQueue cmp}

/-- `prio_queue_put` -/
def put (q : PrioQueue cmp) (thing : α) : PrioQueue cmp where
  array := siftUp (putStop cmp) (q.array.size + 1) (q.array.push (q.insertionCtr, thing)) q.array.size
  insertionCtr := q.insertionCtr + 1
  ordered := siftUp_ordered putStop_spec _ _ _ (Nat.lt_succ_self _) (q.ordered.push _)

/-- The array after `prio_queue_get` took its root. -/
def getArray (cmp : α → α → Ordering) (a : Array (Nat × α)) : Array (Nat × α) :=
  siftDown (siftPick cmp) a.size (dropRoot a) 0

/-- Taking the root leaves the rest in order. -/
theorem getArray_spec {a : Array (Nat × α)} (h : Ordered (EntryLe cmp) a) {e : Nat × α}
    (he : a[0]? = some e) :
    Ordered (EntryLe cmp) (getArray cmp a) ∧ a.toList.Perm (e :: (getArray cmp a).toList) :=
  h.takeRoot siftPick_spec he

/-- `prio_queue_get` -/
def get (q : PrioQueue cmp) : Option (α × PrioQueue cmp) :=
  match he : q.array[0]? with
  | none => none
  | some e => some (e.2, ⟨getArray cmp q.array, q.insertionCtr, (getArray_spec q.ordered he).1⟩)

/-- Putting adds one thing. -/
theorem put_items (q : PrioQueue cmp) (x : α) : (q.put x).items.Perm (x :: q.items) := by
  have h := (siftUp_perm (putStop cmp) (q.array.size + 1) (q.array.push (q.insertionCtr, x))
    q.array.size).map Prod.snd
  rw [Array.toList_push, List.map_append] at h
  exact h.trans (List.perm_append_singleton _ _)

theorem mem_put {x y : α} : y ∈ (q.put x).items ↔ y = x ∨ y ∈ q.items := by
  rw [(put_items q x).mem_iff, List.mem_cons]

/-- Only the empty queue has nothing to get. -/
theorem get_eq_none (h : q.get = none) : q.items = [] := by
  unfold get at h
  split at h
  · rename_i he
    have hsize : q.array = #[] := by simpa using he
    simp [items, hsize]
  · cases h

/-- **Getting takes out a first thing.** The rest stays, and nothing in the queue comes before
what was taken. -/
theorem get_eq_some {q' : PrioQueue cmp} {x : α} (h : q.get = some (x, q')) :
    q.items.Perm (x :: q'.items) ∧ ∀ y ∈ q.items, (cmp x y).isLE := by
  unfold get at h
  split at h
  · cases h
  rename_i e he
  cases h
  refine ⟨((getArray_spec q.ordered he).2.map Prod.snd), fun y hy => ?_⟩
  obtain ⟨e', he', rfl⟩ := List.mem_map.mp hy
  exact (q.ordered.root he he').data

end PrioQueue

end GitCore.Commit
