import Mathlib.Data.List.Basic

/-! # Pointwise operations on lists of different lengths

The operation is applied at each position that both lists have. The longer list goes on as it is,
which is the same as if the shorter one went on with a neutral element. -/

namespace GitCore

universe u

variable {α : Type u} {op : α → α → α} {e : α}

/-- The pointwise operation. -/
def zipPad (op : α → α → α) : List α → List α → List α
  | [], m => m
  | a :: l, [] => a :: l
  | a :: l, b :: m => op a b :: zipPad op l m

@[simp] theorem zipPad_nil_left (m : List α) : zipPad op [] m = m := by simp [zipPad]

@[simp] theorem zipPad_nil_right (l : List α) : zipPad op l [] = l := by
  cases l <;> simp [zipPad]

@[simp] theorem zipPad_cons_cons (a b : α) (l m : List α) :
    zipPad op (a :: l) (b :: m) = op a b :: zipPad op l m := by
  simp [zipPad]

@[simp] theorem length_zipPad (l m : List α) : (zipPad op l m).length = max l.length m.length := by
  fun_induction zipPad op l m with
  | case1 | case2 => simp
  | case3 _ _ _ _ ih => simp [ih]

/-- **The element at a position**, with the neutral element behind the end of a list. -/
theorem getD_zipPad (hleft : ∀ a, op e a = a) (hright : ∀ a, op a e = a) (l m : List α)
    (i : Nat) : (zipPad op l m).getD i e = op (l.getD i e) (m.getD i e) := by
  fun_induction zipPad op l m generalizing i with
  | case1 => simp [hleft]
  | case2 => simp [hright]
  | case3 _ _ _ _ ih =>
    cases i with
    | zero => simp
    | succ i => simpa using ih i

theorem zipPad_comm (hop : ∀ a b, op a b = op b a) (l m : List α) :
    zipPad op l m = zipPad op m l := by
  fun_induction zipPad op l m with
  | case1 | case2 => simp
  | case3 a _ b _ ih => simp [hop a b, ih]

/-- Parts of the same length are worked on by themselves. -/
theorem zipPad_append {l l' : List α} (h : l.length = l'.length) (m m' : List α) :
    zipPad op (l ++ m) (l' ++ m') = zipPad op l l' ++ zipPad op m m' := by
  induction l generalizing l' with
  | nil =>
    obtain rfl : l' = [] := List.length_eq_zero_iff.mp h.symm
    simp
  | cons a l ih =>
    cases l' with
    | nil => cases h
    | cons b l' => simp [ih (Nat.succ.inj h)]

/-- **A run against a list**: the operation with the element of the run, and the rest of the run
behind the end of the list. -/
theorem zipPad_replicate_append (n : Nat) (a : α) (l m : List α) :
    zipPad op (List.replicate n a ++ l) m =
      (m.take n).map (op a) ++ (List.replicate (n - m.length) a ++ zipPad op l (m.drop n)) := by
  induction n generalizing m with
  | zero => simp
  | succ n ih =>
    cases m with
    | nil => simp
    | cons b m => simp [List.replicate_succ, ih]

/-- An operation that is undone by the same element. -/
theorem zipPad_zipPad_cancel (hcancel : ∀ a b, op (op a b) b = a)
    (hself : ∀ b, op b b = e) (l m : List α) :
    zipPad op (zipPad op l m) m = l ++ List.replicate (m.length - l.length) e := by
  induction l generalizing m with
  | nil =>
    rw [zipPad_nil_left]
    induction m with
    | nil => simp
    | cons b m ih =>
      simp [hself, List.replicate_succ, ih]
  | cons a l ih =>
    cases m with
    | nil => simp
    | cons b m => simp [hcancel, ih]

end GitCore
