import Mathlib.Data.List.Lex
import Mathlib.Order.Lex
import Mathlib.Data.List.Infix
import Mathlib.Order.Lattice

/-! # Beginnings in the lexicographic order

In the lexicographic order the strings with a given beginning stand together. -/

namespace GitCore

open List

universe u

variable {α : Type u} [LinearOrder α] {p a b c : List α}

/-- The order of two strings is that of their first elements, or of the rests. -/
theorem cons_le_cons_iff {x y : α} : x :: a ≤ y :: b ↔ x < y ∨ x = y ∧ a ≤ b := by
  rw [← not_lt, ← not_lt]
  exact List.cons_le_cons_iff

/-- A beginning of a string is not greater. -/
theorem prefix_le (h : p <+: a) : p ≤ a := not_lt.mp h.le

/-- **A string between two strings with a common beginning has it too.** -/
theorem prefix_of_between (ha : p <+: a) (hc : p <+: c) (hab : a ≤ b) (hbc : b ≤ c) : p <+: b := by
  induction p generalizing a b c with
  | nil => exact List.nil_prefix
  | cons x p ih =>
    obtain ⟨resta, rfl⟩ := ha
    obtain ⟨restc, rfl⟩ := hc
    cases b with
    | nil => exact absurd hab (not_le.mpr (nil_lt_cons _ _))
    | cons y b =>
      rw [cons_append, cons_le_cons_iff] at hab
      rw [cons_append, cons_le_cons_iff] at hbc
      obtain rfl : x = y := le_antisymm (hab.elim le_of_lt fun h => h.1.le)
        (hbc.elim le_of_lt fun h => h.1.le)
      have hab' := (hab.resolve_left (lt_irrefl _)).2
      have hbc' := (hbc.resolve_left (lt_irrefl _)).2
      exact cons_prefix_cons.mpr ⟨rfl, ih ⟨resta, rfl⟩ ⟨restc, rfl⟩ hab' hbc'⟩

/-- The order of two strings that differ somewhere does not depend on what follows them. -/
theorem append_lt_append_of_diverge (h : a < b) (hnot : ¬ a <+: b) (s t : List α) :
    a ++ s < b ++ t := by
  induction a generalizing b with
  | nil => exact absurd List.nil_prefix hnot
  | cons x a ih =>
    cases b with
    | nil => exact absurd h (not_lt_nil _)
    | cons y b =>
      rw [cons_append, cons_append, cons_lt_cons_iff]
      rcases cons_lt_cons_iff.mp h with hlt | ⟨rfl, hlt⟩
      · exact .inl hlt
      · exact .inr ⟨rfl, ih hlt fun hpre => hnot (cons_prefix_cons.mpr ⟨rfl, hpre⟩)⟩

/-- Byte strings are in the order of their beginnings, if these differ. -/
theorem lt_of_take_lt {n : Nat} (h : a.take n < b.take n) : a < b := by
  induction n generalizing a b with
  | zero => exact absurd h (lt_irrefl _)
  | succ n ih =>
    cases b with
    | nil => exact absurd h (not_lt_nil _)
    | cons y b =>
      cases a with
      | nil => exact nil_lt_cons y b
      | cons x a =>
        rw [take_succ_cons, take_succ_cons, cons_lt_cons_iff] at h
        rw [cons_lt_cons_iff]
        rcases h with hlt | ⟨heq, hlt⟩
        · exact .inl hlt
        · exact .inr ⟨heq, ih hlt⟩

/-- A common beginning does not matter for the order. -/
theorem append_lt_append_left_iff (p : List α) : p ++ a < p ++ b ↔ a < b := by
  refine ⟨fun h => ?_, append_left_lt⟩
  by_contra hle
  exact append_left_le hle h

end GitCore
