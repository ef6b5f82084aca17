import Mathlib.Data.List.Lex
import Mathlib.Data.Prod.Lex

/-! # Order on bytes and byte strings

Mathlib orders lists lexicographically over any linear order; this module supplies the order of
the unsigned machine words, as the one of their values, so that byte strings compare the way
`memcmp` compares them. -/

/-- Bytes ordered by value. -/
instance UInt8.instLinearOrderByValue : LinearOrder UInt8 where
  le_refl := UInt8.le_refl
  le_trans := fun _ _ _ => UInt8.le_trans
  le_antisymm := fun _ _ => UInt8.le_antisymm
  le_total := UInt8.le_total
  lt_iff_le_not_ge := fun a b => by
    rw [UInt8.lt_iff_toNat_lt, UInt8.le_iff_toNat_le, UInt8.le_iff_toNat_le]
    omega
  toDecidableLE := inferInstance
  toDecidableEq := inferInstance
  toDecidableLT := inferInstance

/-- 64-bit words ordered by value. -/
instance UInt64.instLinearOrderByValue : LinearOrder UInt64 where
  le_refl := UInt64.le_refl
  le_trans := fun _ _ _ => UInt64.le_trans
  le_antisymm := fun _ _ => UInt64.le_antisymm
  le_total := UInt64.le_total
  lt_iff_le_not_ge := fun a b => by
    rw [UInt64.lt_iff_toNat_lt, UInt64.le_iff_toNat_le, UInt64.le_iff_toNat_le]
    omega
  toDecidableLE := inferInstance
  toDecidableEq := inferInstance
  toDecidableLT := inferInstance

/-- Three-way comparison by `<`, as C code writes it. -/
theorem GitCore.threeWay_eq_cmp {α : Type*} [LinearOrder α] (a b : α) [Decidable (a < b)]
    [Decidable (b < a)] : (if a < b then Ordering.lt else if b < a then .gt else .eq) = cmp a b := by
  rw [cmp, cmpUsing]
  congr
