import Mathlib.Data.List.Basic

/-! # The merge sort of linked lists

The functions of `DEFINE_LIST_SORT`. A list is given by its nodes, and the sign of a comparison is
an `Ordering`. The sorted runs are kept in an array, one for each binary digit of the number of
nodes so far, and the array has a place for every digit that this number can have. -/

namespace GitCore.MergeSort

open List

variable {α : Type} (compareFn : α → α → Ordering)

/-! ## The code -/

/-- `compare_fn(list, other) < prefer_list` -/
def goesOn (preferList : Bool) (order : Ordering) : Bool :=
  if preferList then order.isLE else order.isLT

/-- The loop of `merge`, with the first nodes of `list` and `other` and what is behind them. -/
def mergeLoop (preferList : Bool) (list : α) : List α → α → List α → List α
  | [], other, others => list :: other :: others
  | next :: rest, other, others =>
    if goesOn preferList (compareFn next other) then
      list :: mergeLoop preferList next rest other others
    else list :: mergeLoop (!preferList) other others next rest
termination_by rest _ others => rest.length + others.length

/-- `merge`, which looks at the first nodes of both lists. -/
def merge : List α → List α → Option (List α)
  | list :: rest, other :: others =>
    if (compareFn list other).isLE then some (mergeLoop compareFn true list rest other others)
    else some (mergeLoop compareFn false other others list rest)
  | _, _ => none

/-- The inner loop, from rank `i` on: where it ends, and the run it has made. -/
def mergeRanks (ranks : Nat → List α) (last : Bool) (i m : Nat) (list : List α) :
    Option (Nat × List α) :=
  if h : m % 2 = 1 then
    (merge compareFn (ranks i) list).bind (mergeRanks ranks last (i + 1) (m / 2))
  else if last = false then some (i, list)
  else if h : m = 0 then some (i, list)
  else mergeRanks ranks last (i + 1) (m / 2) list
termination_by m

/-- The outer loop, with `n` nodes in the runs. -/
def sortLoop (n : Nat) (ranks : Nat → List α) : List α → Option (List α)
  | [] => some []
  | list :: next =>
    match mergeRanks compareFn ranks next.isEmpty 0 n [list] with
    | none => none
    | some (i, list) =>
      if next.isEmpty then some list
      else sortLoop (n + 1) (Function.update ranks i list) next

/-- The function that `DEFINE_LIST_SORT` defines. There are no runs at the start. -/
def listSort (list : List α) : Option (List α) := sortLoop compareFn 0 (fun _ => []) list

/-! ## What is to be shown -/

/-- An element that may stand before another one. -/
def le (a b : α) : Bool := (compareFn a b).isLE

/-- **A stable sort**: the same elements in order, and those that are equal as they were. -/
structure StableSort (l sorted : List α) : Prop where
  perm : sorted.Perm l
  order : sorted.Pairwise fun a b => le compareFn a b
  stable : ∀ a, sorted.filter (fun b => compareFn a b = .eq) = l.filter fun b => compareFn a b = .eq

/-- The runs from rank `i` on, one for each digit of `m`, are sorts of the parts of a list, with the
older parts in the higher ranks. -/
inductive Runs (ranks : Nat → List α) : Nat → Nat → List α → Prop
  | none (i : Nat) : Runs ranks i 0 []
  | zero {i m : Nat} {l : List α} (hm : m ≠ 0) (h : Runs ranks (i + 1) m l) : Runs ranks i (2 * m) l
  | one {i m : Nat} {l l' : List α} (h : Runs ranks (i + 1) m l)
    (hrun : StableSort compareFn l' (ranks i)) (hne : l' ≠ []) : Runs ranks i (2 * m + 1) (l ++ l')

/-! ## Merging -/

/-- A merge does not mix the elements of a class, if the first list is in order. -/
theorem filter_merge {le : α → α → Bool} {p : α → Bool} (hp : ∀ x y, p x → p y → le x y)
    (htrans : ∀ x y z, le x y → le y z → le x z) {l : List α} (h : l.Pairwise fun a b => le a b)
    (l' : List α) : (l.merge l' le).filter p = l.filter p ++ l'.filter p := by
  induction l generalizing l' with
  | nil => simp
  | cons x l ih =>
    induction l' with
    | nil => simp
    | cons y l' ih' =>
      rw [cons_merge_cons]
      split_ifs with hle
      · rw [filter_cons, ih h.of_cons, filter_cons (x := x)]
        split <;> rfl
      rw [filter_cons, ih']
      split_ifs with hy
      · -- nothing in the first list is in the class of `y`
        have hnone : (x :: l).filter p = [] := by
          refine filter_eq_nil_iff.mpr fun z hz hpz => hle ?_
          rcases mem_cons.mp hz with rfl | hz
          · exact hp z y hpz hy
          · exact htrans x z y (rel_of_pairwise_cons h hz) (hp z y hpz hy)
        rw [hnone, filter_cons_of_pos hy]
        rfl
      · rw [filter_cons_of_neg hy]

variable {compareFn}

theorem StableSort.ne_nil {l run : List α} (h : StableSort compareFn l run) (hne : l ≠ []) :
    run ≠ [] := by
  rintro rfl
  exact hne (nil_perm.mp h.perm)

variable [Std.TransCmp compareFn]

theorem le_eq_not_isLT (a b : α) : le compareFn a b = !(compareFn b a).isLT := by
  have hswap : compareFn a b = (compareFn b a).swap := Std.OrientedCmp.eq_swap
  rw [le, hswap]
  cases compareFn b a <;> rfl

/-- The loop prefers the list that `prefer_list` tells it to, as the two change places. -/
theorem mergeLoop_eq (preferList : Bool) (list : α) (rest : List α) (other : α) (others : List α) :
    mergeLoop compareFn preferList list rest other others =
      list :: if preferList then rest.merge (other :: others) (le compareFn)
        else (other :: others).merge rest (le compareFn) := by
  fun_induction mergeLoop compareFn preferList list rest other others with
  | case1 preferList => cases preferList <;> simp
  | case2 preferList list next rest other others hgo ih =>
    rw [ih, cons_merge_cons, cons_merge_cons, le_eq_not_isLT other]
    cases preferList <;> simp_all [goesOn, le]
  | case3 preferList list next rest other others hgo ih =>
    rw [ih, cons_merge_cons, cons_merge_cons, le_eq_not_isLT other]
    cases preferList <;> simp_all [goesOn, le]

variable {l l' run run' : List α}

/-- **Merging** two runs. -/
theorem StableSort.merge (h : StableSort compareFn l run) (h' : StableSort compareFn l' run')
    (hne : l ≠ []) (hne' : l' ≠ []) :
    ∃ out, merge compareFn run run' = some out ∧ StableSort compareFn (l ++ l') out := by
  have htrans : ∀ x y z, le compareFn x y → le compareFn y z → le compareFn x z := fun _ _ _ =>
    Std.TransCmp.isLE_trans
  refine ⟨run.merge run' (le compareFn), ?_, ?_, ?_, fun a => ?_⟩
  · obtain ⟨a, run, rfl⟩ := exists_cons_of_ne_nil (h.ne_nil hne)
    obtain ⟨b, run', rfl⟩ := exists_cons_of_ne_nil (h'.ne_nil hne')
    rw [MergeSort.merge, cons_merge_cons, mergeLoop_eq, mergeLoop_eq, if_pos rfl, le]
    split <;> rfl
  · exact (merge_perm_append _).trans (h.perm.append h'.perm)
  · refine pairwise_merge htrans (fun a b => ?_) _ _ h.order h'.order
    rw [le_eq_not_isLT a]
    cases h : compareFn b a <;> simp [le, h]
  · rw [filter_merge ?_ htrans h.order, h.stable, h'.stable, filter_append]
    intro x y hx hy
    have hxy : compareFn x y = .eq := Std.TransCmp.eq_trans
      (Std.OrientedCmp.eq_symm (of_decide_eq_true hx)) (of_decide_eq_true hy)
    rw [le, hxy]
    rfl

/-! ## The runs -/

variable {ranks : Nat → List α} {i m n : Nat}

omit [Std.TransCmp compareFn] in
/-- A run is put into a rank below. -/
theorem Runs.update (h : Runs compareFn ranks i m l) {j : Nat} (hj : j < i) (run : List α) :
    Runs compareFn (Function.update ranks j run) i m l := by
  induction h with
  | none i => exact .none i
  | zero hm _ ih => exact .zero hm (ih (by omega))
  | one _ hrun hne ih =>
    refine .one (ih (by omega)) ?_ hne
    rwa [Function.update_of_ne (by omega)]

section

variable (h : Runs compareFn ranks i m l) (hrun : StableSort compareFn l' run) (hne : l' ≠ [])

include h hrun hne

/-- **One more run** is like adding one to a binary number. -/
theorem Runs.add : ∃ j list, mergeRanks compareFn ranks false i m run = some (j, list) ∧
    Runs compareFn (Function.update ranks j list) i (m + 1) (l ++ l') := by
  induction h generalizing l' run with
  | none i =>
    rw [mergeRanks, dif_neg (by decide), if_pos rfl]
    exact ⟨i, run, rfl, .one (.none (i + 1)) (by rwa [Function.update_self]) hne⟩
  | @zero i m l hm h ih =>
    rw [mergeRanks, dif_neg (by omega), if_pos rfl]
    exact ⟨i, run, rfl, .one (h.update i.lt_succ_self run) (by rwa [Function.update_self]) hne⟩
  | @one i m l l₁ h hrun' hne' ih =>
    obtain ⟨list, hmerge, hlist⟩ := hrun'.merge hrun hne' hne
    rw [mergeRanks, dif_pos (by omega), hmerge, append_assoc, show (2 * m + 1) / 2 = m by omega]
    obtain ⟨j, list, hsome, hruns⟩ := ih hlist (append_ne_nil_of_left_ne_nil hne' _)
    exact ⟨j, list, hsome, .zero m.succ_ne_zero hruns⟩

/-- **At the last node** all runs are merged. -/
theorem Runs.mergeAll : ∃ j list, mergeRanks compareFn ranks true i m run = some (j, list) ∧
    StableSort compareFn (l ++ l') list := by
  induction h generalizing l' run with
  | none i =>
    rw [mergeRanks]
    exact ⟨i, run, rfl, hrun⟩
  | @zero i m l hm h ih =>
    rw [mergeRanks, dif_neg (by omega), if_neg Bool.true_eq_false.mp, dif_neg (by omega),
      show 2 * m / 2 = m by omega]
    exact ih hrun hne
  | @one i m l l₁ h hrun' hne' ih =>
    obtain ⟨list, hmerge, hlist⟩ := hrun'.merge hrun hne' hne
    rw [mergeRanks, dif_pos (by omega), hmerge, append_assoc, show (2 * m + 1) / 2 = m by omega]
    exact ih hlist (append_ne_nil_of_left_ne_nil hne' _)

end

/-- The loop over the nodes that are left. -/
theorem sortLoop_spec (h : Runs compareFn ranks 0 n l) {list : List α} (hne : list ≠ []) :
    ∃ sorted, sortLoop compareFn n ranks list = some sorted ∧
      StableSort compareFn (l ++ list) sorted := by
  induction list generalizing n ranks l with
  | nil => exact absurd rfl hne
  | cons node next ih =>
    have hone : StableSort compareFn [node] [node] := ⟨.refl _, pairwise_singleton _ _, fun _ => rfl⟩
    rw [sortLoop]
    cases next with
    | nil =>
      obtain ⟨j, sorted, hsome, hsorted⟩ := h.mergeAll hone hne
      grind
    | cons node' next =>
      obtain ⟨j, run, hsome, hruns⟩ := h.add hone (cons_ne_nil _ _)
      obtain ⟨sorted, hsorted⟩ := ih hruns (cons_ne_nil _ _)
      rw [append_assoc] at hsorted
      rw [isEmpty_cons, hsome]
      exact ⟨sorted, hsorted⟩

/-- **The merge sort is a stable sort** for every comparison that is a total preorder. -/
theorem listSort_stable (compareFn : α → α → Ordering) [Std.TransCmp compareFn] (list : List α) :
    ∃ sorted, listSort compareFn list = some sorted ∧ StableSort compareFn list sorted := by
  cases list with
  | nil => exact ⟨[], rfl, .refl _, .nil, fun _ => rfl⟩
  | cons node next => exact sortLoop_spec (.none 0) (cons_ne_nil _ _)

/-- Three nodes, two of which are equal. -/
theorem listSort_stable_three :
    ∃ sorted, listSort (compareOn Prod.fst) [(2, 'a'), (1, 'b'), (2, 'c')] = some sorted ∧
      StableSort (compareOn Prod.fst) [(2, 'a'), (1, 'b'), (2, 'c')] sorted :=
  listSort_stable _ _

end GitCore.MergeSort
