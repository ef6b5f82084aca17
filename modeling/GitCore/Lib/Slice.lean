import Mathlib.Data.List.Infix
import Mathlib.Data.List.Nodup

/-! # Positions, maxima and slices of lists

`slice l first last` is the part of `l` from position `first` to position `last`, both included.
A slice is an infix, and an infix that shares no element with the slice `t` is still one after `t`
was replaced (`infix_replace`). -/

namespace GitCore

open List

variable {α : Type*}

/-- Changing the element behind a given beginning. -/
theorem modify_append_cons (l l' : List α) (x : α) (f : α → α) :
    (l ++ x :: l').modify l.length f = l ++ f x :: l' := by
  induction l with
  | nil => exact modify_zero_cons f x l'
  | cons y l ih => rw [cons_append, length_cons, modify_succ_cons, ih, cons_append]

/-- Replacing the element behind a given beginning. -/
theorem set_append_cons (l l' : List α) (x y : α) : (l ++ x :: l').set l.length y = l ++ y :: l' := by
  rw [set_append_right _ _ le_rfl, Nat.sub_self, set_cons_zero]

variable {l : List α} {x : α}

/-- A value is not above the maximum. -/
theorem le_foldr_max (f : α → Nat) (hx : x ∈ l) : f x ≤ (l.map f).foldr max 0 := by
  induction l with
  | nil => cases hx
  | cons y l ih =>
    rcases mem_cons.mp hx with rfl | hx
    · exact le_max_left _ _
    · exact (ih hx).trans (le_max_right _ _)

/-- The elements of `l` from `first` to `last`. -/
def slice (l : List α) (first last : Nat) : List α := (l.take (last + 1)).drop first

variable {first last : Nat}

/-- A list around one of its slices. -/
theorem take_slice_drop (l : List α) (h : first ≤ last + 1) :
    l.take first ++ slice l first last ++ l.drop (last + 1) = l := by
  have htake : l.take first = (l.take (last + 1)).take first := by
    rw [take_take, Nat.min_eq_left h]
  rw [slice, htake, take_append_drop, take_append_drop]

theorem slice_subset (l : List α) (first last : Nat) : slice l first last ⊆ l :=
  fun _ hx => mem_of_mem_take (mem_of_mem_drop hx)

theorem length_slice (l : List α) (h : last < l.length) :
    (slice l first last).length = last + 1 - first := by
  rw [slice, length_drop, length_take, Nat.min_eq_left h]

theorem getElem?_slice (l : List α) (first last i : Nat) :
    (slice l first last)[i]? = if first + i ≤ last then l[first + i]? else none := by
  rw [slice, getElem?_drop, getElem?_take]
  simp only [Nat.lt_succ_iff]

/-- Dropping the first element of a slice. -/
theorem slice_eq_cons (hle : first ≤ last) (h : last < l.length) :
    slice l first last = l[first] :: slice l (first + 1) last := by
  have hlen : first < (l.take (last + 1)).length := by
    rw [length_take]
    omega
  rw [slice, drop_eq_getElem_cons hlen, getElem_take, slice]

/-- What a list has after a part of it was replaced. -/
theorem mem_replace {c d t u : List α} (h : (c ++ t ++ d).Nodup) :
    x ∈ c ++ u ++ d ↔ x ∈ u ∨ x ∈ c ++ t ++ d ∧ x ∉ t := by
  rw [nodup_append', nodup_append', disjoint_append_left] at h
  obtain ⟨⟨-, -, hct⟩, -, -, htd⟩ := h
  have hc : x ∈ c → x ∉ t := fun hx => hct hx
  have ht : x ∈ t → x ∉ d := fun hx => htd hx
  simp only [mem_append]
  tauto

/-- Two slices in one list that share no element lie one behind the other. -/
theorem append_eq_append_of_disjoint {a b c d r t : List α} (h : a ++ (r ++ b) = c ++ (t ++ d))
    (hr : r ≠ []) (ht : t ≠ []) (hdisj : ∀ x ∈ r, x ∉ t) :
    (∃ e, a = c ++ (t ++ e)) ∨ ∃ e, c = a ++ (r ++ e) := by
  rcases append_eq_append_iff.mp h with ⟨e, rfl, he⟩ | ⟨e, rfl, he⟩
  · -- `c` reaches into `r ++ b`
    rcases append_eq_append_iff.mp he with ⟨f, rfl, -⟩ | ⟨f, hf, htd⟩
    · exact .inr ⟨f, rfl⟩
    cases f with
    | nil => exact .inr ⟨[], by simp [hf]⟩
    | cons x f =>
      obtain ⟨y, t, rfl⟩ := exists_cons_of_ne_nil ht
      obtain ⟨rfl, -⟩ := List.cons.inj htd
      exact absurd mem_cons_self (hdisj y (by rw [hf]; simp))
  · rcases append_eq_append_iff.mp he with ⟨f, rfl, -⟩ | ⟨f, hf, hrb⟩
    · exact .inl ⟨f, rfl⟩
    cases f with
    | nil => exact .inl ⟨[], by simp [hf]⟩
    | cons x f =>
      obtain ⟨y, r, rfl⟩ := exists_cons_of_ne_nil hr
      obtain ⟨rfl, -⟩ := List.cons.inj hrb
      exact absurd (by rw [hf]; simp) (hdisj y mem_cons_self)

/-- An infix stays one when a part of the list that shares no element with it is replaced. -/
theorem infix_replace {c d r t : List α} (u : List α) (h : r <:+: c ++ t ++ d) (ht : t ≠ [])
    (hdisj : ∀ x ∈ r, x ∉ t) : r <:+: c ++ u ++ d := by
  by_cases hr : r = []
  · rw [hr]
    exact List.nil_infix
  obtain ⟨a, b, hab⟩ := h
  rw [append_assoc, append_assoc] at hab
  rcases append_eq_append_of_disjoint hab hr ht hdisj with ⟨e, rfl⟩ | ⟨e, rfl⟩
  · have hd : e ++ (r ++ b) = d := by
      simpa only [append_assoc, append_cancel_left_eq] using hab
    exact ⟨c ++ u ++ e, b, by rw [← hd]; simp only [append_assoc]⟩
  · exact ⟨a, e ++ u ++ d, by simp only [append_assoc]⟩

end GitCore
