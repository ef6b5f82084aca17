import Mathlib.Order.WellFounded
import Mathlib.Data.List.Basic

/-! # Histories

A history is what the code reads of the commits: the parents of each one, in their order, and its
date. Following parents never leads back. -/

namespace GitCore.Commit

universe u

/-- The commits with their parents and dates. -/
structure History (α : Type u) where
  /-- `commit->parents` -/
  parents : α → List α
  /-- `commit->date` -/
  date : α → Nat
  /-- No commit is its own ancestor. -/
  acyclic : WellFounded fun p c => p ∈ parents c

variable {α : Type u} (h : History α)

/-- `a` is `c` or an ancestor of it. -/
def History.Reaches (c a : α) : Prop := Relation.ReflTransGen (fun c p => p ∈ h.parents c) c a

/-- `a` is a proper ancestor of `c`. -/
def History.Ancestor (c a : α) : Prop := Relation.TransGen (fun c p => p ∈ h.parents c) c a

/-- There is a way from `c` to its ancestor `a` over that many parents. -/
inductive History.Path : Nat → α → α → Prop
  | refl {c : α} : Path 0 c c
  | step {n : Nat} {c p a : α} (hp : p ∈ h.parents c) (hpath : Path n p a) : Path (n + 1) c a

variable {h} {c p a b : α}

theorem History.Reaches.refl (c : α) : h.Reaches c c := Relation.ReflTransGen.refl

theorem History.Reaches.parent (hp : p ∈ h.parents c) : h.Reaches c p :=
  Relation.ReflTransGen.single hp

theorem History.Reaches.trans (hab : h.Reaches a b) (hbc : h.Reaches b c) : h.Reaches a c :=
  Relation.ReflTransGen.trans hab hbc

theorem History.Ancestor.parent (hp : p ∈ h.parents c) : h.Ancestor c p :=
  Relation.TransGen.single hp

theorem History.Ancestor.reaches (hca : h.Ancestor c a) : h.Reaches c a :=
  Relation.TransGen.to_reflTransGen hca

theorem History.Ancestor.trans_reaches (hab : h.Ancestor a b) (hbc : h.Reaches b c) :
    h.Ancestor a c :=
  Relation.TransGen.trans_left hab hbc

theorem History.Reaches.trans_ancestor (hab : h.Reaches a b) (hbc : h.Ancestor b c) :
    h.Ancestor a c :=
  Relation.TransGen.trans_right hab hbc

/-- What a commit reaches is the commit itself or a proper ancestor. -/
theorem History.Reaches.eq_or_ancestor (hca : h.Reaches c a) : a = c ∨ h.Ancestor c a :=
  Relation.reflTransGen_iff_eq_or_transGen.mp hca

/-- No commit is its own ancestor. -/
theorem History.Ancestor.irrefl (hcc : h.Ancestor c c) : False := by
  have hwf : WellFounded (fun a c => h.Ancestor c a) := by
    have := h.acyclic.transGen
    refine Subrelation.wf (fun {a c} hca => ?_) this
    exact Relation.transGen_swap.mpr hca
  exact hwf.irrefl.irrefl c hcc

/-- A way over some parents starts with one of them. -/
theorem History.path_succ_iff {n : Nat} : h.Path (n + 1) c a ↔ ∃ p ∈ h.parents c, h.Path n p a := by
  constructor
  · intro hpath
    cases hpath with
    | step hp hpath => exact ⟨_, hp, hpath⟩
  · rintro ⟨p, hp, hpath⟩
    exact .step hp hpath

end GitCore.Commit
