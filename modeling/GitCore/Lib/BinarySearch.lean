import Mathlib.Data.List.Basic
import Mathlib.Order.Basic

/-! # Binary search in a sorted array

The search for a key in an array without duplicates, in the form that returns either the position of
the key or the position at which it would have to be inserted. -/

namespace GitCore

open List

universe u

variable {α : Type u}

/-- The loop between `lo` and `hi`, where `cmp i` compares the key with the element at `i`. The key
is at a position, or it belongs at one. -/
def binarySearchLoop (cmp : Nat → Ordering) : Nat → Nat → Nat → Nat ⊕ Nat
  | 0, lo, _ => .inr lo
  | fuel + 1, lo, hi =>
    if lo < hi then
      let mi := lo + (hi - lo) / 2
      match cmp mi with
      | .eq => .inl mi
      | .lt => binarySearchLoop cmp fuel lo mi
      | .gt => binarySearchLoop cmp fuel (mi + 1) hi
    else .inr lo

/-- The search in a list, where `cmp a` compares the key with the element `a`. -/
def binarySearch (cmp : α → Ordering) (l : List α) : Nat ⊕ Nat :=
  binarySearchLoop (fun i => (l[i]?.map cmp).getD .lt) l.length 0 l.length

/-- The loop ends at an element that is equal to the key, or between the smaller and the greater
elements. -/
theorem binarySearchLoop_spec {cmp : Nat → Ordering} {size : Nat}
    (hsorted : ∀ i j, i < j → j < size → (cmp i = .lt → cmp j = .lt) ∧ (cmp j = .gt → cmp i = .gt))
    {fuel lo hi : Nat}
    (hfuel : hi ≤ lo + fuel) (hle : lo ≤ hi) (hsize : hi ≤ size) (hlow : ∀ i < lo, cmp i = .gt)
    (hhigh : ∀ i, hi ≤ i → i < size → cmp i = .lt) :
    (∃ p < size, binarySearchLoop cmp fuel lo hi = .inl p ∧ cmp p = .eq) ∨
      ∃ p ≤ size, binarySearchLoop cmp fuel lo hi = .inr p ∧ (∀ i < p, cmp i = .gt) ∧
        ∀ i, p ≤ i → i < size → cmp i = .lt := by
  induction fuel generalizing lo hi with
  | zero =>
    obtain rfl : lo = hi := by omega
    exact .inr ⟨lo, hsize, rfl, hlow, hhigh⟩
  | succ fuel ih =>
    rw [binarySearchLoop]
    split_ifs with hlt
    · dsimp only
      cases hmi : cmp (lo + (hi - lo) / 2) with
      | eq => exact .inl ⟨_, by omega, rfl, hmi⟩
      | lt =>
        refine ih (by omega) (by omega) (by omega) hlow fun i hi' hisize => ?_
        grind
      | gt =>
        refine ih (by omega) (by omega) hsize (fun i hi' => ?_) hhigh
        grind
    · obtain rfl : lo = hi := by omega
      exact .inr ⟨lo, hsize, rfl, hlow, hhigh⟩

/-- **The search** finds the key, or the place for it. -/
theorem binarySearch_spec {cmp : α → Ordering} {l : List α}
    (hsorted : l.Pairwise fun a b => cmp a ≠ .gt → cmp b = .lt) :
    (∃ p a, binarySearch cmp l = .inl p ∧ l[p]? = some a ∧ cmp a = .eq) ∨
      ∃ p ≤ l.length, binarySearch cmp l = .inr p ∧ (∀ a ∈ l.take p, cmp a = .gt) ∧
        ∀ a ∈ l.drop p, cmp a = .lt := by
  have hcmp : ∀ (i : Nat) a, l[i]? = some a → (l[i]?.map cmp).getD .lt = cmp a := by
    intro i a ha
    rw [ha]
    rfl
  have hsorted' (i j : Nat) (hij : i < j) (hj : j < l.length) :
      ((l[i]?.map cmp).getD .lt = .lt → (l[j]?.map cmp).getD .lt = .lt) ∧
        ((l[j]?.map cmp).getD .lt = .gt → (l[i]?.map cmp).getD .lt = .gt) := by
    have hpair := pairwise_iff_getElem.mp hsorted i j (Nat.lt_trans hij hj) hj hij
    grind
  rcases binarySearchLoop_spec hsorted' (Nat.le_add_left l.length 0) (Nat.zero_le _) (Nat.le_refl _)
      (fun i hi => absurd hi (Nat.not_lt_zero i)) (fun i hi hi' => absurd hi' (by omega)) with
    ⟨p, hp, hsearch, heq⟩ | ⟨p, hp, hsearch, hlow, hhigh⟩
  · refine .inl ⟨p, l[p], hsearch, getElem?_eq_getElem hp, ?_⟩
    rwa [← hcmp p l[p] (getElem?_eq_getElem hp)]
  refine .inr ⟨p, hp, hsearch, fun a ha => ?_, fun a ha => ?_⟩
  · obtain ⟨i, hi, rfl⟩ := mem_iff_getElem.mp ha
    grind
  · obtain ⟨i, hi, rfl⟩ := mem_iff_getElem.mp ha
    rw [length_drop] at hi
    rw [getElem_drop, ← hcmp (p + i) _ (getElem?_eq_getElem (by omega))]
    exact hhigh (p + i) (by omega) (by omega)

end GitCore
