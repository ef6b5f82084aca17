import Mathlib.Data.List.Perm.Basic

/-! # Trees that branch on the first differing bit

A binary tree whose inner nodes say which bit of a key they look at. In a well formed tree the keys
below a node agree on all earlier bits and are divided by the bit of the node; a search looks at the
bits of the nodes only, and still ends at a key that agrees with what was searched for as long as
any key does. Keys are given by their bits, as functions of the position. -/

namespace GitCore

open List

universe u

/-- A tree of values whose inner nodes look at a bit. -/
inductive BitTree (ν : Type u) where
  /-- A value -/
  | leaf (v : ν)
  /-- The position of a bit, the values where it is not set and those where it is -/
  | node (i : ℕ) (zero one : BitTree ν)

namespace BitTree

variable {ν : Type u}

/-- The values of a tree, in the order of its leaves. -/
@[simp] def leaves : BitTree ν → List ν
  | leaf v => [v]
  | node _ zero one => zero.leaves ++ one.leaves

/-- Follow some bits to a leaf. -/
def search (q : ℕ → Bool) : BitTree ν → ν
  | leaf v => v
  | node i zero one => if q i then one.search q else zero.search q

/-- The subtree on the way of some bits where the first `m` bits are used up. -/
def under (q : ℕ → Bool) (m : ℕ) : BitTree ν → BitTree ν
  | leaf v => leaf v
  | node i zero one =>
    if i < m then (if q i then one.under q m else zero.under q m) else node i zero one

/-- A value beside a tree, under a node for a bit. -/
def join (bit : ν → ℕ → Bool) (n : ℕ) (v : ν) (t : BitTree ν) : BitTree ν :=
  if bit v n then node n t (leaf v) else node n (leaf v) t

/-- Put a value where the bits of the nodes exceed `n` for the first time on its way. -/
def insertAt (bit : ν → ℕ → Bool) (n : ℕ) (v : ν) : BitTree ν → BitTree ν
  | leaf w => join bit n v (leaf w)
  | node i zero one =>
    if n < i then join bit n v (node i zero one)
    else if bit v i then node i zero (one.insertAt bit n v)
    else node i (zero.insertAt bit n v) one

/-- **Well formed**: the values of a node agree on the bits before its own one, which divides them.
-/
inductive WF (bit : ν → ℕ → Bool) : BitTree ν → Prop
  | leaf (v : ν) : WF bit (leaf v)
  | node {i : ℕ} {zero one : BitTree ν} (hzero : WF bit zero) (hone : WF bit one)
      (unset : ∀ v ∈ zero.leaves, bit v i = false) (set : ∀ v ∈ one.leaves, bit v i = true)
      (agree : ∀ v ∈ (node i zero one).leaves, ∀ w ∈ (node i zero one).leaves, ∀ j < i,
        bit v j = bit w j) :
      WF bit (node i zero one)

/-- A tree has a leaf. -/
theorem exists_mem_leaves (t : BitTree ν) : ∃ v, v ∈ t.leaves := by
  induction t with
  | leaf v => exact ⟨v, mem_singleton_self v⟩
  | node i zero one ihzero ihone =>
    obtain ⟨v, hv⟩ := ihzero
    exact ⟨v, mem_append_left _ hv⟩

/-- A search ends at a value of the tree. -/
theorem search_mem (q : ℕ → Bool) (t : BitTree ν) : t.search q ∈ t.leaves := by
  fun_induction search q t with
  | case1 v => exact mem_singleton_self v
  | case2 i zero one hi ih => exact mem_append_right _ ih
  | case3 i zero one hi ih => exact mem_append_left _ ih

section Search

variable {bit : ν → ℕ → Bool} {q : ℕ → Bool} {t : BitTree ν} {n : ℕ} {v : ν}

/-- **The best match**: a search agrees with what was searched for as long as any value does. -/
theorem search_agrees (h : t.WF bit) (hv : v ∈ t.leaves)
    (hagree : ∀ j < n, bit v j = q j) : ∀ j < n, bit (t.search q) j = q j := by
  induction h with
  | leaf w =>
    rw [leaves, mem_singleton] at hv
    rw [search, ← hv]
    exact hagree
  | @node i zero one hzero hone unset set agree ihzero ihone =>
    intro j hj
    by_cases hi : i < n
    · -- the bit of the node is one of those on which the value agrees, so the search goes its way
      have hbit := hagree i hi
      unfold search
      rcases mem_append.mp hv with hv | hv
      · grind
      grind
    · rw [agree _ (search_mem q _) v hv j (by omega)]
      exact hagree j hj

/-- The values below the used up bits are the values that agree on them, if the best match does. -/
theorem mem_under (h : t.WF bit) {m : ℕ} (hbest : ∀ j < m, bit (t.search q) j = q j) :
    v ∈ (t.under q m).leaves ↔ v ∈ t.leaves ∧ ∀ j < m, bit v j = q j := by
  induction h with
  | leaf w =>
    refine (and_iff_left_of_imp fun hv => ?_).symm
    rw [mem_singleton.mp hv]
    exact hbest
  | @node i zero one hzero hone unset set agree ihzero ihone =>
    unfold under
    split
    · rename_i hi
      rw [search] at hbest
      split_ifs at hbest ⊢ with hq
      · rw [ihone hbest, leaves, mem_append]
        grind
      · rw [ihzero hbest, leaves, mem_append]
        grind
    · refine (and_iff_left_of_imp fun hv j hj => ?_).symm
      rw [agree v hv _ (search_mem q _) j (by omega)]
      exact hbest j hj

/-- A subtree has some of the values, in the same order. -/
theorem leaves_under_sublist (q : ℕ → Bool) (m : ℕ) (t : BitTree ν) :
    (t.under q m).leaves.Sublist t.leaves := by
  fun_induction under q m t with
  | case1 | case4 => exact List.Sublist.refl _
  | case2 i zero one hi hq ih => exact ih.trans (sublist_append_right _ _)
  | case3 i zero one hi hq ih => exact ih.trans (sublist_append_left _ _)

/-- The nodes below a node look at later bits. -/
theorem WF.lt_of_agree {i : ℕ} {zero one : BitTree ν} (h : (BitTree.node i zero one).WF bit)
    (hagree : ∀ v ∈ (BitTree.node i zero one).leaves, ∀ w ∈ (BitTree.node i zero one).leaves, ∀ j ≤ n,
      bit v j = bit w j) : n < i := by
  obtain ⟨v, hv⟩ := zero.exists_mem_leaves
  obtain ⟨w, hw⟩ := one.exists_mem_leaves
  cases h with
  | node hzero hone unset set agree =>
    by_contra hle
    have heq := hagree v (mem_append_left _ hv) w (mem_append_right _ hw) i (by omega)
    grind

/-- Values that agree with a new one agree with each other. -/
theorem agree_of_perm {i : ℕ} {t' : BitTree ν} (hperm : t'.leaves.Perm (v :: t.leaves))
    (hbefore : ∀ w ∈ t.leaves, ∀ j < i, bit w j = bit v j) :
    ∀ w ∈ t'.leaves, ∀ x ∈ t'.leaves, ∀ j < i, bit w j = bit x j := by
  have hagree : ∀ w ∈ t'.leaves, ∀ j < i, bit w j = bit v j := by
    intro w hw j hj
    rcases mem_cons.mp (hperm.mem_iff.mp hw) with rfl | hw
    · rfl
    · exact hbefore w hw j hj
  exact fun w hw x hx j hj => (hagree w hw j hj).trans (hagree x hx j hj).symm

/-- A value beside a tree that has the other bit. -/
theorem join_wf (h : t.WF bit) (hbefore : ∀ w ∈ t.leaves, ∀ j < n, bit w j = bit v j)
    (hbit : ∀ w ∈ t.leaves, bit w n ≠ bit v n) :
    (join bit n v t).WF bit ∧ (join bit n v t).leaves.Perm (v :: t.leaves) := by
  unfold join
  split_ifs with hv
  · have hperm : (node n t (leaf v)).leaves.Perm (v :: t.leaves) := perm_append_singleton _ _
    refine ⟨.node h (.leaf v) (fun w hw => ?_) (fun w hw => ?_) (agree_of_perm hperm hbefore), hperm⟩
    · exact eq_false_of_ne_true fun hset => hbit w hw (hset.trans hv.symm)
    · rw [mem_singleton.mp hw, hv]
  · have hperm : (node n (leaf v) t).leaves.Perm (v :: t.leaves) := List.Perm.refl _
    rw [Bool.not_eq_true] at hv
    refine ⟨.node (.leaf v) h (fun w hw => ?_) (fun w hw => ?_) (agree_of_perm hperm hbefore), hperm⟩
    · rw [mem_singleton.mp hw, hv]
    · exact eq_true_of_ne_false fun hunset => hbit w hw (hunset.trans hv.symm)

/-- **Insertion**: where some value agrees with the new one up to bit `n`, and none agrees with it
on that bit too, the tree stays well formed and gets the new value. -/
theorem insertAt_wf (h : t.WF bit) (hsome : ∃ w ∈ t.leaves, ∀ j < n, bit w j = bit v j)
    (hnone : ∀ w ∈ t.leaves, (∀ j < n, bit w j = bit v j) → bit w n ≠ bit v n) :
    (t.insertAt bit n v).WF bit ∧ (t.insertAt bit n v).leaves.Perm (v :: t.leaves) := by
  induction h with
  | leaf w =>
    obtain ⟨x, hx, hagree⟩ := hsome
    obtain rfl := mem_singleton.mp hx
    have hall : ∀ w ∈ (leaf x).leaves, ∀ j < n, bit w j = bit v j := by
      intro w hw
      rw [mem_singleton.mp hw]
      exact hagree
    exact join_wf (.leaf x) hall fun w hw => hnone w hw (hall w hw)
  | @node i zero one hzero hone unset set agree ihzero ihone =>
    obtain ⟨x, hx, hagree⟩ := hsome
    unfold insertAt
    by_cases hi : n < i
    · -- all values agree on bit `n`, so the new one goes beside all of them
      rw [if_pos hi]
      have hall : ∀ w ∈ (node i zero one).leaves, ∀ j < n, bit w j = bit v j := fun w hw j hj =>
        (agree w hw x hx j (by omega)).trans (hagree j hj)
      exact join_wf (.node hzero hone unset set agree) hall fun w hw => hnone w hw (hall w hw)
    rw [if_neg hi]
    have hbefore : ∀ w ∈ (node i zero one).leaves, ∀ j < i, bit w j = bit v j := fun w hw j hj =>
      (agree w hw x hx j hj).trans (hagree j (by omega))
    have hside : bit x i = bit v i := by
      -- otherwise the values on the side of the new one agree with it on bit `n` too
      by_contra hne
      have hin : i = n := by
        by_contra hne'
        exact hne (hagree i (by omega))
      obtain ⟨w, hw, hbit⟩ : ∃ w ∈ (node i zero one).leaves, bit w i = bit v i := by
        cases hv : bit v i with
        | false =>
          obtain ⟨w, hw⟩ := zero.exists_mem_leaves
          exact ⟨w, mem_append_left _ hw, unset w hw⟩
        | true =>
          obtain ⟨w, hw⟩ := one.exists_mem_leaves
          exact ⟨w, mem_append_right _ hw, set w hw⟩
      subst hin
      exact hnone w hw (hbefore w hw) hbit
    split_ifs with hv
    · have hx' : x ∈ one.leaves := by
        refine (mem_append.mp hx).resolve_left fun hx => ?_
        grind
      obtain ⟨hwf, hperm⟩ := ihone ⟨x, hx', hagree⟩ fun w hw => hnone w (mem_append_right _ hw)
      have hall : (node i zero (one.insertAt bit n v)).leaves.Perm
          (v :: (node i zero one).leaves) :=
        (hperm.append_left _).trans perm_middle
      refine ⟨.node hzero hwf unset (fun w hw => ?_) (agree_of_perm hall hbefore), hall⟩
      grind
    · rw [Bool.not_eq_true] at hv
      have hx' : x ∈ zero.leaves := by
        refine (mem_append.mp hx).resolve_right fun hx => ?_
        grind
      obtain ⟨hwf, hperm⟩ := ihzero ⟨x, hx', hagree⟩ fun w hw => hnone w (mem_append_left _ hw)
      have hall : (node i (zero.insertAt bit n v) one).leaves.Perm
          (v :: (node i zero one).leaves) := hperm.append_right _
      refine ⟨.node hwf hone (fun w hw => ?_) set (agree_of_perm hall hbefore), hall⟩
      grind

end Search

/-- A value comes before another: at the first differing bit it has none set. -/
def Before (bit : ν → ℕ → Bool) (v w : ν) : Prop :=
  ∃ i, (∀ j < i, bit v j = bit w j) ∧ bit v i = false ∧ bit w i = true

/-- **The leaves are in order.** -/
theorem WF.pairwise {bit : ν → ℕ → Bool} {t : BitTree ν} (h : t.WF bit) :
    t.leaves.Pairwise (Before bit) := by
  induction h with
  | leaf v => exact pairwise_singleton _ v
  | @node i zero one hzero hone unset set agree ihzero ihone =>
    refine pairwise_append.mpr ⟨ihzero, ihone, fun v hv w hw => ?_⟩
    exact ⟨i, agree v (mem_append_left _ hv) w (mem_append_right _ hw), unset v hv, set w hw⟩

end BitTree

end GitCore
