import Mathlib.Data.List.Basic

/-! # Streams

An iterator is a state with a function `next` that fails, reports the end, or hands out an element
together with the state to go on from. `Produces next s l` says that calling `next` again and again
from `s` hands out the elements of `l` and then reports the end. `Drains next s l` says the same of
a `next` that goes on from a state at the end, too, and keeps reporting the end there. -/

namespace GitCore

variable {σ ε α : Type*}

/-- The value that a sequence of two computations goes through. -/
theorem exists_of_bind_eq_ok {β : Type*} {x : Except ε α} {f : α → Except ε β} {b : β}
    (h : x.bind f = .ok b) : ∃ a, x = .ok a ∧ f a = .ok b := by
  cases x with
  | error e => cases h
  | ok a => exact ⟨a, rfl, h⟩

/-- Repeated calls of `next` hand out the elements of the list and then report the end. -/
def Produces (next : σ → Except ε (Option (α × σ))) : σ → List α → Prop
  | s, [] => next s = .ok none
  | s, x :: xs => ∃ s', next s = .ok (some (x, s')) ∧ Produces next s' xs

/-- The end of a stream is determined by its start. -/
theorem Produces.unique {next : σ → Except ε (Option (α × σ))} {s : σ} {l l' : List α}
    (h : Produces next s l) (h' : Produces next s l') : l = l' := by
  induction l generalizing s l' with
  | nil =>
    cases l' with
    | nil => rfl
    | cons y ys =>
      obtain ⟨t, ht, -⟩ := h'
      rw [Produces, ht] at h
      cases h
  | cons x xs ih =>
    obtain ⟨s', hs, hxs⟩ := h
    cases l' with
    | nil =>
      rw [Produces, hs] at h'
      cases h'
    | cons y ys =>
      obtain ⟨t, ht, hys⟩ := h'
      rw [hs] at ht
      obtain ⟨rfl, rfl⟩ := Prod.mk.inj (Option.some.inj (Except.ok.inj ht))
      rw [ih hxs hys]

/-- Repeated calls of `next` hand out the elements of the list and then report the end, again and
again. -/
def Drains (next : σ → Except ε (Option α × σ)) : σ → List α → Prop
  | s, [] => ∃ s', next s = .ok (none, s') ∧ next s' = .ok (none, s')
  | s, x :: xs => ∃ s', next s = .ok (some x, s') ∧ Drains next s' xs

end GitCore
