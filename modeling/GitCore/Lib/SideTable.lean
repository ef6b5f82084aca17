import GitCore.Lib.SortedList
import Mathlib.Data.Nat.Bitwise

/-! # Tables with a side table

A table has a word for each element of a list. Elements that do not fit into a word are kept in a
side table: their word has a flag and the number of such elements before, which is the place in the
side table (`getElem?_filter_countP_take`). -/

namespace GitCore

open List

universe u v

/-! ## Numbered records -/

section Numbered

variable {α : Type u} {β : Type v} (p : α → Bool) (f : Nat → α → List β)

/-- The records of a list. Each is made with the number of marked elements before it, counted from
`n`. -/
def numberedFlatMap : Nat → List α → List β
  | _, [] => []
  | n, a :: l => f n a ++ numberedFlatMap (n + if p a then 1 else 0) l

variable {p f} {width i : Nat} {l : List α} {a : α}

/-- An element of a filtered list is found at the number of those before it. -/
theorem getElem?_filter_countP_take
    (ha : l[i]? = some a) (hpa : p a = true) : (l.filter p)[(l.take i).countP p]? = some a := by
  obtain ⟨hi, rfl⟩ := List.getElem?_eq_some_iff.mp ha
  have hsplit : l.filter p = (l.take i).filter p ++ l[i] :: (l.drop (i + 1)).filter p := by
    conv_lhs => rw [← take_append_drop i l, filter_append, drop_eq_getElem_cons hi,
      filter_cons_of_pos hpa]
  grind

theorem length_numberedFlatMap (hwidth : ∀ n, ∀ a ∈ l, (f n a).length = width) (n : Nat) :
    (numberedFlatMap p f n l).length = width * l.length := by
  induction l generalizing n with
  | nil => rfl
  | cons a l ih =>
    have hrest := ih (fun n b hb => hwidth n b (mem_cons_of_mem a hb))
    simp [numberedFlatMap, hwidth n a mem_cons_self, hrest, Nat.mul_succ, Nat.add_comm]

/-- **A table of numbered records**: the record at a position. -/
theorem drop_numberedFlatMap (hwidth : ∀ n, ∀ a ∈ l, (f n a).length = width) (n : Nat)
    (ha : l[i]? = some a) :
    ∃ rest, (numberedFlatMap p f n l).drop (width * i) =
      f (n + (l.take i).countP p) a ++ rest := by
  induction l generalizing i n with
  | nil => cases ha
  | cons b l ih =>
    cases i with
    | zero =>
      obtain rfl : b = a := Option.some.inj ha
      exact ⟨_, rfl⟩
    | succ i =>
      obtain ⟨rest, hrest⟩ := ih (fun n c hc => hwidth n c (mem_cons_of_mem b hc))
        (n + if p b then 1 else 0) ha
      refine ⟨rest, ?_⟩
      rw [numberedFlatMap, Nat.mul_succ, Nat.add_comm, ← hwidth n b mem_cons_self,
        drop_length_add_append, hwidth n b mem_cons_self, hrest, take_succ_cons,
        countP_cons, Nat.add_comm (List.countP _ _), ← Nat.add_assoc]

/-- **The side table**: a loop that stops after as many marked elements as there are writes all of
them. -/
theorem eq_flatMap_filter {write : List α → Nat → Option (List β)} {g : α → List β}
    (hzero : ∀ l, write l 0 = some []) (hsucc : ∀ a l n, write (a :: l) (n + 1) =
      if p a then (write l n).map (g a ++ ·) else write l (n + 1)) (l : List α) :
    write l (l.countP p) = some ((l.filter p).flatMap g) := by
  induction l with
  | nil => exact hzero []
  | cons a l ih =>
    cases ha : p a with
    | true =>
      rw [countP_cons_of_pos ha, filter_cons_of_pos ha, hsucc, if_pos ha, ih]
      rfl
    | false =>
      rw [countP_cons_of_neg (by simp [ha]), filter_cons_of_neg (by simp [ha]), ← ih]
      -- the loop stops early when nothing is left to write
      cases l.countP p with
      | zero => rw [hzero, hzero]
      | succ n => rw [hsucc, ha]; rfl

end Numbered

/-! ## The flag of a word -/

section Flag

variable {flag n : UInt32}

section

variable (hflag : flag.toNat = 2 ^ 31) (h : n.toNat < 2 ^ 31)

include hflag h

/-- The flag is the upper half of a word. -/
theorem toNat_or_flag : (flag ||| n).toNat = 2 ^ 31 + n.toNat := by
  rw [UInt32.toNat_or, hflag]
  simpa using (Nat.two_pow_add_eq_or_of_lt h 1).symm

/-- A word with the flag names a place. -/
theorem and_xor_flag : (flag ||| n) &&& flag ≠ 0 ∧ (flag ||| n) ^^^ flag = n := by
  have hbit : n.toNat.testBit 31 = false := Nat.testBit_lt_two_pow h
  constructor
  · intro hzero
    have := congrArg (fun v : UInt32 => v.toNat.testBit 31) hzero
    rw [UInt32.toNat_and, UInt32.toNat_or, Nat.testBit_and, Nat.testBit_or, hbit, hflag] at this
    exact absurd this (by decide)
  apply UInt32.toNat_inj.mp
  apply Nat.eq_of_testBit_eq
  intro i
  rw [UInt32.toNat_xor, UInt32.toNat_or, Nat.testBit_xor, Nat.testBit_or, hflag,
    Nat.testBit_two_pow]
  by_cases hi : 31 = i
  · simp [← hi, hbit]
  · simp [hi]

/-- A word without the flag. -/
theorem and_flag_eq_zero : n &&& flag = 0 := by
  apply UInt32.toNat_inj.mp
  rw [UInt32.toNat_and, hflag, Nat.and_two_pow, Nat.testBit_lt_two_pow h]
  rfl

end

end Flag

end GitCore
