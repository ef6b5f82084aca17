import Mathlib.Order.WellFounded
import Mathlib.Data.List.Basic

/-! # Evaluation in post-order with an explicit stack

Values are attached to the nodes of a graph without cycles. The value of a node depends on the
values of the nodes below it, and a loop computes it with a stack: it looks at the node on top, and
either finds a node below it that has no value yet, which it pushes, or it finds the value of the
node, which it stores before it pops the node. -/

namespace GitCore

universe u v

variable {α : Type u} {β : Type v}

/-- One look at a node with the values so far: a node below it that comes first, or its value. -/
structure PostOrder (α : Type u) (β : Type v) where
  /-- The nodes that the value of a node depends on. -/
  below : α → List α
  /-- There are no cycles. -/
  acyclic : WellFounded fun p c => p ∈ below c
  /-- Whether a value is one that has been computed. -/
  done : β → Prop
  /-- The look. -/
  visit : (α → β) → α → α ⊕ β
  /-- What comes first is a node below without a value. -/
  of_visit_inl : ∀ {value c p}, visit value c = .inl p → p ∈ below c ∧ ¬ done (value p)
  /-- If nothing comes first, the nodes below have values. -/
  of_visit_inr : ∀ {value c b}, visit value c = .inr b → (∀ p ∈ below c, done (value p)) ∧ done b
  /-- The look reads nothing but the values below. -/
  visit_congr : ∀ {value value' c}, (∀ p ∈ below c, value p = value' p) →
    visit value c = visit value' c

namespace PostOrder

section Loop

variable [DecidableEq α] (visit : (α → β) → α → α ⊕ β) {value : α → β} {stack : List α} {fuel : Nat}

/-- The loop over the stack, `none` if the fuel runs out. -/
def drain : Nat → List α → (α → β) → Option (α → β)
  | _, [], value => some value
  | 0, _ :: _, _ => none
  | fuel + 1, c :: stack, value =>
    match visit value c with
    | .inl p => drain fuel (p :: c :: stack) value
    | .inr b => drain fuel stack (Function.update value c b)

theorem drain_succ_inl {c p : α} (h : visit value c = .inl p) :
    drain visit (fuel + 1) (c :: stack) value = drain visit fuel (p :: c :: stack) value := by
  rw [drain, h]

theorem drain_succ_inr {c : α} {b : β} (h : visit value c = .inr b) :
    drain visit (fuel + 1) (c :: stack) value =
      drain visit fuel stack (Function.update value c b) := by
  rw [drain, h]

end Loop

variable (S : PostOrder α β)

/-- Values have been added: a node that had one has kept it, and any other value is the one that a
look at the node gives. -/
structure Extends (value value' : α → β) : Prop where
  kept : ∀ c, S.done (value c) → value' c = value c
  computed : ∀ c, value' c = value c ∨ S.visit value' c = .inr (value' c)

variable {S} {value value' value'' : α → β} {c p : α} {b : β}

theorem Extends.refl (value : α → β) : S.Extends value value :=
  ⟨fun _ _ => rfl, fun _ => .inl rfl⟩

/-- A look that finds a value finds the same one later. -/
theorem Extends.visit_inr (h : S.Extends value value')
    (hvisit : S.visit value c = .inr b) : S.visit value' c = .inr b := by
  rw [← hvisit]
  refine S.visit_congr fun p hp => ?_
  exact h.kept p ((S.of_visit_inr hvisit).1 p hp)

theorem Extends.trans (h : S.Extends value value') (h' : S.Extends value' value'') :
    S.Extends value value'' := by
  refine ⟨fun c hdone => ?_, fun c => ?_⟩
  · have hkept := h.kept c hdone
    rw [h'.kept c (by rwa [hkept]), hkept]
  rcases h'.computed c with heq' | hvisit
  · rcases h.computed c with heq | hvisit
    · exact .inl (heq'.trans heq)
    · rw [heq']
      exact .inr (h'.visit_inr hvisit)
  · exact .inr hvisit

/-- Storing the value of a node. -/
theorem Extends.update [DecidableEq α] (hc : ¬ S.done (value c))
    (hvisit : S.visit value c = .inr b) : S.Extends value (Function.update value c b) := by
  have hbelow : ∀ p ∈ S.below c, value p = Function.update value c b p := by
    intro p hp
    have hne : p ≠ c := fun heq => hc (heq ▸ (S.of_visit_inr hvisit).1 p hp)
    rw [Function.update_of_ne hne]
  refine ⟨fun d hd => ?_, fun d => ?_⟩
  · grind
  by_cases heq : d = c
  · subst heq
    rw [Function.update_self, ← S.visit_congr hbelow]
    exact .inr hvisit
  · exact .inl (Function.update_of_ne heq _ _)

/-- The values cover what is below a node with a value. -/
def Closed (S : PostOrder α β) (value : α → β) : Prop :=
  ∀ c, S.done (value c) → ∀ p ∈ S.below c, S.done (value p)

theorem Closed.extends (h : S.Closed value) (hext : S.Extends value value') : S.Closed value' := by
  intro c hc p hp
  rcases hext.computed c with heq | hvisit
  · rw [heq] at hc
    have hdone := h c hc p hp
    rwa [hext.kept p hdone]
  · exact (S.of_visit_inr hvisit).1 p hp

/-- Everything below a node with a value has a value. -/
theorem Closed.done_of_reach (h : S.Closed value)
    (hreach : Relation.ReflTransGen (fun c p => p ∈ S.below c) c p) (hc : S.done (value c)) :
    S.done (value p) := by
  induction hreach with
  | refl => exact hc
  | tail _ hstep ih => exact h _ ih _ hstep

section Run

/-- A list has fewer nodes without a value when one of them gets one. -/
theorem length_filter_lt [DecidablePred fun c => S.done (value c)]
    [DecidablePred fun c => S.done (value' c)] {nodes : List α} (hp : p ∈ nodes)
    (hundone : ¬ S.done (value p)) (hdone : S.done (value' p))
    (hkept : ∀ c, S.done (value c) → value' c = value c) :
    (nodes.filter fun c => ¬ S.done (value' c)).length <
      (nodes.filter fun c => ¬ S.done (value c)).length := by
  have hle : ∀ c, ¬ S.done (value' c) → ¬ S.done (value c) := fun c hc h =>
    hc (by rwa [hkept c h])
  have heq : (nodes.filter fun c => ¬ S.done (value' c)) =
      (nodes.filter fun c => ¬ S.done (value c)).filter fun c => ¬ S.done (value' c) := by
    rw [List.filter_filter]
    apply List.filter_congr
    intro c _
    simpa using hle c
  rw [heq, List.length_filter_lt_length_iff_exists]
  exact ⟨p, List.mem_filter.mpr ⟨hp, by simpa using hundone⟩, by simpa using hdone⟩

variable [DecidableEq α]

/-- **The node on top gets its value**, and the loop goes on with the rest of the stack. By
induction on the graph, and for one node by induction on how many nodes below it have no value. -/
theorem exists_drain_cons (c : α) (value : α → β) (hc : ¬ S.done (value c)) :
    ∃ n value', S.Extends value value' ∧ S.done (value' c) ∧
      ∀ fuel stack, drain S.visit (fuel + n) (c :: stack) value = drain S.visit fuel stack value' := by
  classical
  induction c using S.acyclic.induction generalizing value with
  | _ c ih =>
    generalize hcount : ((S.below c).filter fun p => ¬ S.done (value p)).length = count
    induction count using Nat.strong_induction_on generalizing value with
    | _ count ihCount =>
      cases hvisit : S.visit value c with
      | inr b =>
        refine ⟨1, Function.update value c b, .update hc hvisit, ?_, fun fuel stack => ?_⟩
        · rw [Function.update_self]
          exact (S.of_visit_inr hvisit).2
        · exact drain_succ_inr _ hvisit
      | inl p =>
        obtain ⟨hp, hundone⟩ := S.of_visit_inl hvisit
        obtain ⟨n, value₁, hext, hdone, hdrain⟩ := ih p hp value hundone
        by_cases hc₁ : S.done (value₁ c)
        · -- another look at a node with a value changes nothing
          have hself : S.visit value₁ c = .inr (value₁ c) :=
            (hext.computed c).resolve_left fun heq => hc (heq ▸ hc₁)
          refine ⟨1 + n + 1, value₁, hext, hc₁, fun fuel stack => ?_⟩
          rw [show fuel + (1 + n + 1) = fuel + 1 + n + 1 by omega, drain_succ_inl _ hvisit, hdrain,
            drain_succ_inr _ hself, Function.update_eq_self]
        · have hlt : ((S.below c).filter fun p => ¬ S.done (value₁ p)).length < count := by
            rw [← hcount]
            exact length_filter_lt hp hundone hdone hext.kept
          obtain ⟨n', value₂, hext', hdone', hdrain'⟩ := ihCount _ hlt value₁ hc₁ rfl
          refine ⟨n' + n + 1, value₂, hext.trans hext', hdone', fun fuel stack => ?_⟩
          rw [show fuel + (n' + n + 1) = fuel + n' + n + 1 by omega, drain_succ_inl _ hvisit, hdrain,
            hdrain']

/-- More fuel changes nothing. -/
theorem drain_mono {visit : (α → β) → α → α ⊕ β} {fuel more : Nat} {stack : List α}
    (h : drain visit fuel stack value = some value') (hle : fuel ≤ more) :
    drain visit more stack value = some value' := by
  induction fuel generalizing more stack value with
  | zero =>
    cases stack with
    | nil =>
      rw [drain] at h ⊢
      exact h
    | cons c stack => cases h
  | succ fuel ih =>
    obtain ⟨more, rfl⟩ := Nat.exists_eq_add_of_le' (Nat.one_le_of_lt hle)
    cases stack with
    | nil =>
      exact h
    | cons c stack =>
      rw [drain] at h ⊢
      cases hvisit : visit value c with
      | inl | inr =>
        rw [hvisit] at h
        exact ih h (Nat.le_of_succ_le_succ hle)

/-- **The loop started with one node ends**, with a value for it. -/
theorem exists_drain (c : α) (value : α → β) (hc : ¬ S.done (value c)) :
    ∃ n value', S.Extends value value' ∧ S.done (value' c) ∧
      ∀ fuel, n ≤ fuel → drain S.visit fuel [c] value = some value' := by
  obtain ⟨n, value', hext, hdone, hdrain⟩ := S.exists_drain_cons c value hc
  refine ⟨n, value', hext, hdone, fun fuel hfuel => drain_mono ?_ hfuel⟩
  have hrun := hdrain 0 []
  rwa [Nat.zero_add, drain] at hrun

end Run

end PostOrder

end GitCore
