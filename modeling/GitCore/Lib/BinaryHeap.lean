import Mathlib.Data.List.Perm.Basic
import Mathlib.Tactic.Ring

/-! # Binary heaps in an array

A heap is an array read as a binary tree in level order: the children of slot `i` are the slots
`2 * i + 1` and `2 * i + 2`. Programs differ in the test that ends a sift and in the way a child
is picked, so that both are parameters here: `siftUp` takes the test, `siftDown` the choice of the
child. What they need to satisfy is said by `StopSpec` and `PickSpec`, relative to the relation `R`
that the heap is to be ordered by.

Slots are read with `a[i]?`, which keeps bounds out of the statements. -/

namespace GitCore.BinaryHeap

variable {α : Type*} {i : Nat} {x : α}

/-! ## Sifting -/

/-- Move the value in slot `i` up until `stop parent child` holds. -/
def siftUp (stop : α → α → Bool) : Nat → Array α → Nat → Array α
  | 0, a, _ => a
  | fuel + 1, a, i =>
    if i = 0 then a
    else match a[(i - 1) / 2]?, a[i]? with
      | some p, some c =>
        if stop p c then a
        else siftUp stop fuel (a.swapIfInBounds ((i - 1) / 2) i) ((i - 1) / 2)
      | _, _ => a

/-- Move the value in slot `i` down along the children that `pick` names. -/
def siftDown (pick : Array α → Nat → Option Nat) : Nat → Array α → Nat → Array α
  | 0, a, _ => a
  | fuel + 1, a, i =>
    match pick a i with
    | none => a
    | some c => siftDown pick fuel (a.swapIfInBounds i c) c

/-- Overwrite the root by the last value and shorten the array. -/
def dropRoot (a : Array α) : Array α :=
  match a.back? with
  | none => a
  | some x => (a.setIfInBounds 0 x).pop

/-! ## Order -/

section Order

variable (R : α → α → Prop)

/-- Every value is related to the values in the slots below it. -/
def Ordered (a : Array α) : Prop :=
  ∀ i x y, 0 < i → a[(i - 1) / 2]? = some x → a[i]? = some y → R x y

/-- The edge into slot `i` may be out of order. -/
structure SiftUpInv (a : Array α) (i : Nat) : Prop where
  /-- All other edges are in order. -/
  edge : ∀ j x y, 0 < j → j ≠ i → a[(j - 1) / 2]? = some x → a[j]? = some y → R x y
  /-- The parent of `i` may move to slot `i`. -/
  skip : ∀ j x y, 0 < i → 0 < j → (j - 1) / 2 = i → a[(i - 1) / 2]? = some x →
    a[j]? = some y → R x y

/-- The edges out of slot `i` may be out of order. -/
structure SiftDownInv (a : Array α) (i : Nat) : Prop where
  /-- All other edges are in order. -/
  edge : ∀ j x y, 0 < j → (j - 1) / 2 ≠ i → a[(j - 1) / 2]? = some x → a[j]? = some y → R x y
  /-- A child of `i` may move to slot `i`. -/
  skip : ∀ j x y, 0 < i → 0 < j → (j - 1) / 2 = i → a[(i - 1) / 2]? = some x →
    a[j]? = some y → R x y

/-- The test that ends a sift up decides between the two orders of parent and child. -/
structure StopSpec (stop : α → α → Bool) : Prop where
  /-- A stop leaves parent and child in order. -/
  stop_rel : ∀ p c, stop p c = true → R p c
  /-- A swap puts them in order. -/
  swap_rel : ∀ p c, stop p c = false → R c p

/-- What a choice of the child to sift to has to say about the slots below `i`. -/
structure PickSpec (pick : Array α → Nat → Option Nat) : Prop where
  /-- Without a choice the children are in order already. -/
  none_rel : ∀ a i, pick a i = none → ∀ j x y, 0 < j → (j - 1) / 2 = i → a[i]? = some x →
    a[j]? = some y → R x y
  /-- The choice is a child of `i`. -/
  child : ∀ a i c, pick a i = some c → 0 < c ∧ (c - 1) / 2 = i ∧ c < a.size
  /-- It may stand above the value sifted down. -/
  some_rel : ∀ a i c x y, pick a i = some c → a[c]? = some x → a[i]? = some y → R x y
  /-- It may stand above its sibling. -/
  sibling : ∀ a i c, pick a i = some c → ∀ j x y, 0 < j → j ≠ c → (j - 1) / 2 = i →
    a[c]? = some x → a[j]? = some y → R x y

end Order

/-! ## Reading a swapped array -/

/-- The slots after a swap. -/
theorem getElem?_swapIfInBounds {a : Array α} {j : Nat} (hi : i < a.size) (hj : j < a.size)
    (k : Nat) :
    (a.swapIfInBounds i j)[k]? = if k = i then a[j]? else if k = j then a[i]? else a[k]? := by
  rw [Array.swapIfInBounds_def, dif_pos hi, dif_pos hj, Array.getElem?_swap]
  by_cases hkj : k = j
  · subst hkj
    by_cases hki : k = i
    · subst hki
      simp [hi]
    · simp [hki, hi]
  grind

/-- A swap permutes the values. -/
theorem swapIfInBounds_perm (a : Array α) (i j : Nat) :
    (a.swapIfInBounds i j).toList.Perm a.toList := by
  rw [Array.swapIfInBounds_def]
  split
  · split
    · exact (Array.swap_perm _ _).toList
    · exact List.Perm.refl _
  · exact List.Perm.refl _

/-- Sifting up permutes the values. -/
theorem siftUp_perm (stop : α → α → Bool) (fuel : Nat) (a : Array α) (i : Nat) :
    (siftUp stop fuel a i).toList.Perm a.toList := by
  fun_induction siftUp stop fuel a i with
  | case4 => exact (‹List.Perm _ _›).trans (swapIfInBounds_perm _ _ _)
  | _ => exact List.Perm.refl _

/-- Sifting down permutes the values. -/
theorem siftDown_perm (pick : Array α → Nat → Option Nat) (fuel : Nat) (a : Array α) (i : Nat) :
    (siftDown pick fuel a i).toList.Perm a.toList := by
  fun_induction siftDown pick fuel a i with
  | case1 | case2 => exact List.Perm.refl _
  | case3 _ _ _ _ _ ih => exact ih.trans (swapIfInBounds_perm _ _ _)

/-- Dropping the root removes one occurrence of its value. -/
theorem dropRoot_perm {a : Array α} (hx : a[0]? = some x) :
    a.toList.Perm (x :: (dropRoot a).toList) := by
  obtain ⟨l⟩ := a
  match l with
  | [] => simp at hx
  | [y] =>
    obtain rfl : y = x := by simpa using hx
    exact List.Perm.refl _
  | y :: z :: l =>
    obtain rfl : y = x := by simpa using hx
    have hlast : (z :: l).dropLast ++ [(z :: l).getLast (by simp)] = z :: l :=
      List.dropLast_append_getLast _
    have hdrop : (dropRoot ⟨y :: z :: l⟩).toList
        = (z :: l).getLast (by simp) :: (z :: l).dropLast := by
      simp [dropRoot, Array.back?, List.getLast_eq_getElem]
    rw [hdrop]
    refine List.Perm.cons _ ?_
    conv_lhs => rw [← hlast]
    exact List.perm_append_singleton _ _

/-! ## Order after a sift -/

section Proofs

variable {R : α → α → Prop} [IsTrans α R] {a : Array α} {pick : Array α → Nat → Option Nat}

/-- One swap of a sift up. -/
theorem SiftUpInv.swap {p c : α} (h : SiftUpInv R a i) (hi : i ≠ 0)
    (hp : a[(i - 1) / 2]? = some p) (hc : a[i]? = some c) (hcp : R c p) :
    SiftUpInv R (a.swapIfInBounds ((i - 1) / 2) i) ((i - 1) / 2) := by
  have hilt : i < a.size := (Array.getElem?_eq_some_iff.mp hc).1
  have hget := getElem?_swapIfInBounds (a := a) (i := (i - 1) / 2) (j := i) (by omega) hilt
  constructor
  · intro j x y hj hne hx hy
    rw [hget] at hx hy
    rw [if_neg hne] at hy
    by_cases hji : j = i
    · subst hji
      rw [if_pos rfl, hc] at hx
      rw [if_pos rfl, hp] at hy
      cases hx
      cases hy
      exact hcp
    · rw [if_neg hji] at hy
      by_cases hpar : (j - 1) / 2 = (i - 1) / 2
      · -- a sibling of the value that moved up
        rw [if_pos hpar, hc] at hx
        cases hx
        exact IsTrans.trans _ _ _ hcp (h.edge j p y hj hji (by rw [hpar]; exact hp) hy)
      · rw [if_neg hpar] at hx
        split_ifs at hx with hchild
        · rw [hp] at hx
          cases hx
          exact h.skip j p y (by omega) hj hchild hp hy
        · exact h.edge j x y hj hji hx hy
  · intro j x y hpos hj hpar hx hy
    rw [hget, if_neg (by omega), if_neg (by omega)] at hx
    rw [hget, if_neg (by omega)] at hy
    have hxp : R x p := h.edge _ x p hpos (by omega) hx hp
    split_ifs at hy with hji
    · rw [hp] at hy
      cases hy
      exact hxp
    · exact IsTrans.trans _ _ _ hxp (h.edge j p y hj hji (by rw [hpar]; exact hp) hy)

/-- Sifting up the last open edge restores the order. -/
theorem siftUp_ordered {stop : α → α → Bool} (hstop : StopSpec R stop) (fuel : Nat) (a : Array α)
    (i : Nat) (hfuel : i < fuel) (h : SiftUpInv R a i) : Ordered R (siftUp stop fuel a i) := by
  induction fuel generalizing a i with
  | zero => omega
  | succ fuel ih =>
    rw [siftUp]
    split
    · rename_i hi
      exact fun j x y hj hx hy => h.edge j x y hj (by omega) hx hy
    rename_i hi
    split
    · rename_i p c hp hc
      split
      · rename_i hst
        intro j x y hj hx hy
        by_cases hji : j = i
        · subst hji
          rw [hp] at hx
          rw [hc] at hy
          cases hx
          cases hy
          exact hstop.stop_rel _ _ hst
        · exact h.edge j x y hj hji hx hy
      · rename_i hst
        exact ih _ _ (by omega) (h.swap hi hp hc (hstop.swap_rel _ _ (by simpa using hst)))
    · rename_i hnone
      intro j x y hj hx hy
      by_cases hji : j = i
      · subst hji
        exact absurd hy (hnone x y hx)
      · exact h.edge j x y hj hji hx hy

omit [IsTrans α R] in
/-- One swap of a sift down. -/
theorem SiftDownInv.swap (hpick : PickSpec R pick) {c : Nat}
    (h : SiftDownInv R a i) (hc : pick a i = some c) : SiftDownInv R (a.swapIfInBounds i c) c := by
  obtain ⟨hc0, hcpar, hclt⟩ := hpick.child a i c hc
  have hget := getElem?_swapIfInBounds (a := a) (i := i) (j := c) (by omega) hclt
  constructor
  · intro j x y hj hne hx hy
    rw [hget] at hx hy
    rw [if_neg hne] at hx
    split_ifs at hx with hpar
    · rw [if_neg (by omega)] at hy
      split_ifs at hy with hjc
      · exact hpick.some_rel a i c x y hc hx hy
      · exact hpick.sibling a i c hc j x y hj hjc hpar hx hy
    · by_cases hji : j = i
      · rw [if_pos hji] at hy
        subst hji
        exact h.skip c x y hj hc0 hcpar hx hy
      · rw [if_neg hji, if_neg (by omega)] at hy
        exact h.edge j x y hj hpar hx hy
  · intro j x y _ hj hpar hx hy
    rw [hcpar, hget, if_pos rfl] at hx
    rw [hget, if_neg (by omega), if_neg (by omega)] at hy
    exact h.edge j x y hj (by omega) (by rw [hpar]; exact hx) hy

omit [IsTrans α R] in
/-- Sifting down from the only slot with open edges restores the order. -/
theorem siftDown_ordered (hpick : PickSpec R pick)
    (fuel : Nat) (a : Array α) (i : Nat) (hfuel : a.size ≤ i + fuel) (h : SiftDownInv R a i) :
    Ordered R (siftDown pick fuel a i) := by
  fun_induction siftDown pick fuel a i with
  | case1 a i =>
    intro j x y hj hx hy
    have := (Array.getElem?_eq_some_iff.mp hy).1
    exact h.edge j x y hj (by omega) hx hy
  | case2 fuel a i hnone =>
    intro j x y hj hx hy
    by_cases hpar : (j - 1) / 2 = i
    · exact hpick.none_rel a i hnone j x y hj hpar (by rw [← hpar]; exact hx) hy
    · exact h.edge j x y hj hpar hx hy
  | case3 fuel a i c hc ih =>
    have hchild := hpick.child a i c hc
    exact ih (by rw [Array.size_swapIfInBounds]; omega) (h.swap hpick hc)

/-! ## The operations of a priority queue -/

section

omit [IsTrans α R]

/-- The order may be changed outside of the heap. -/
theorem Ordered.mono {R' : α → α → Prop} (h : Ordered R a)
    (himp : ∀ x ∈ a.toList, ∀ y ∈ a.toList, R x y → R' x y) : Ordered R' a := by
  intro i x y hi hx hy
  exact himp x (Array.mem_toList_iff.mpr (Array.mem_of_getElem? hx)) y
    (Array.mem_toList_iff.mpr (Array.mem_of_getElem? hy)) (h i x y hi hx hy)

/-- Appending a value opens the edge into the last slot. -/
theorem Ordered.push (h : Ordered R a) (v : α) : SiftUpInv R (a.push v) a.size := by
  constructor
  · intro j x y hj hne hx hy
    have hlt : j < (a.push v).size := (Array.getElem?_eq_some_iff.mp hy).1
    rw [Array.size_push] at hlt
    rw [Array.getElem?_push, if_neg (by omega)] at hx hy
    exact h j x y hj hx hy
  grind

/-- The slots after `dropRoot`, the root apart. -/
theorem getElem?_dropRoot {y : α} (hi : i ≠ 0) (hy : (dropRoot a)[i]? = some y) :
    a[i]? = some y := by
  unfold dropRoot at hy
  grind

/-- Another root opens the edges out of slot zero. -/
theorem Ordered.changeRoot (h : Ordered R a) {b : Array α}
    (hsame : ∀ i y, i ≠ 0 → b[i]? = some y → a[i]? = some y) : SiftDownInv R b 0 where
  edge := fun j x y hj hpar hx hy => h j x y hj (hsame _ x hpar hx) (hsame j y (by omega) hy)
  skip := fun _ _ _ h0 => absurd h0 (Nat.lt_irrefl 0)

/-- Dropping the root opens the edges out of slot zero. -/
theorem Ordered.dropRoot (h : Ordered R a) : SiftDownInv R (dropRoot a) 0 :=
  h.changeRoot fun _ _ => getElem?_dropRoot

/-- Taking the root leaves the rest in order. -/
theorem Ordered.takeRoot (hpick : PickSpec R pick) (h : Ordered R a) (hx : a[0]? = some x) :
    Ordered R (siftDown pick a.size (BinaryHeap.dropRoot a) 0) ∧
      a.toList.Perm (x :: (siftDown pick a.size (BinaryHeap.dropRoot a) 0).toList) := by
  have hperm := dropRoot_perm hx
  refine ⟨siftDown_ordered hpick _ _ _ ?_ h.dropRoot, ?_⟩
  · have := hperm.length_eq
    grind
  · exact hperm.trans ((siftDown_perm _ _ _ _).symm.cons _)

end

/-- The root of an ordered heap is related to every value. -/
theorem Ordered.root [Std.Refl R] (h : Ordered R a) (hx : a[0]? = some x) {y : α}
    (hy : y ∈ a.toList) : R x y := by
  obtain ⟨i, hi⟩ := List.mem_iff_getElem?.mp hy
  rw [Array.getElem?_toList] at hi
  induction i using Nat.strongRecOn generalizing y with
  | ind i ih =>
    by_cases h0 : i = 0
    · subst h0
      rw [hx] at hi
      cases hi
      exact Std.Refl.refl _
    · have hlt := (Array.getElem?_eq_some_iff.mp hi).1
      have hpar : a[(i - 1) / 2]? = some a[(i - 1) / 2] := Array.getElem?_eq_getElem (by omega)
      exact IsTrans.trans _ _ _ (ih ((i - 1) / 2) (by omega) (by simp) hpar)
        (h i _ y (by omega) hpar hi)

end Proofs

end GitCore.BinaryHeap
