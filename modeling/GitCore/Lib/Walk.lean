import Mathlib.Algebra.Order.BigOperators.Group.Finset
import Mathlib.Algebra.Ring.Nat

/-! # Walks through marked nodes

A graph is given by the list of successors of each node. A walk stays within a set of nodes; the
searches that mark or clear nodes as they go are about such walks. A search over finitely many
nodes ends because every step uses up some of a finite sum, for which `sum_add_le_sum` is the
rule. -/

namespace GitCore

variable {α : Type*}

/-- There is a walk from the first node to the second one all of whose nodes satisfy `P`. -/
inductive Walk (next : α → List α) (P : α → Prop) : α → α → Prop
  | refl {a : α} (ha : P a) : Walk next P a a
  | step {a b c : α} (ha : P a) (hb : b ∈ next a) (hw : Walk next P b c) : Walk next P a c

namespace Walk

variable {next : α → List α} {P Q : α → Prop} {a b c : α}

section

variable (h : Walk next P a b)

include h

/-- A walk stays a walk when more nodes are allowed. -/
theorem mono (hPQ : ∀ x, P x → Q x) : Walk next Q a b := by
  induction h with
  | refl ha => exact .refl (hPQ _ ha)
  | step ha hb _ ih => exact .step (hPQ _ ha) hb ih

/-- The first node of a walk is allowed. -/
theorem first : P a := by
  cases h with
  | refl ha | step ha => exact ha

/-- The last node of a walk is allowed. -/
theorem last : P b := by
  induction h with
  | refl ha => exact ha
  | step _ _ _ ih => exact ih

/-- A walk goes on where another one ended. -/
theorem trans (h' : Walk next P b c) : Walk next P a c := by
  induction h with
  | refl => exact h'
  | step ha hb _ ih => exact .step ha hb (ih h')

/-- A walk goes on with an edge to an allowed node. -/
theorem snoc (hc : c ∈ next b) (hPc : P c) : Walk next P a c :=
  h.trans (.step h.last hc (.refl hPc))

/-- What the edges keep holds at the end of a walk if it holds at its start. -/
theorem carry {R : α → Prop} (ha : R a)
    (hstep : ∀ x y, P x → P y → y ∈ next x → R x → R y) : R b := by
  induction h with
  | refl => exact ha
  | step hPa hb hw ih => exact ih (hstep _ _ hPa hw.first hb ha)

end

end Walk

/-- The nodes that one can walk to are those that the edges lead to. -/
theorem exists_walk_of_reflTransGen {next : α → List α} {a b : α}
    (h : Relation.ReflTransGen (fun x y => y ∈ next x) a b) :
    Walk next (fun x => Relation.ReflTransGen (fun x y => y ∈ next x) x b) a b := by
  induction h using Relation.ReflTransGen.head_induction_on with
  | refl => exact .refl .refl
  | head hab hbc ih => exact .step (.head hab hbc) hab ih

/-- A sum drops by what one summand drops by when no other one grows. -/
theorem sum_add_le_sum [Fintype α] [DecidableEq α] {f g : α → Nat} {c : α} {k : Nat}
    (hc : g c + k ≤ f c) (hne : ∀ x, x ≠ c → g x ≤ f x) : (∑ x, g x) + k ≤ ∑ x, f x := by
  have hg := Finset.add_sum_erase Finset.univ g (Finset.mem_univ c)
  have hf := Finset.add_sum_erase Finset.univ f (Finset.mem_univ c)
  have hle : ∑ x ∈ Finset.univ.erase c, g x ≤ ∑ x ∈ Finset.univ.erase c, f x :=
    Finset.sum_le_sum fun x hx => hne x (Finset.ne_of_mem_erase hx)
  omega

end GitCore
