import GitCore.Lib.ByteOrder
import Mathlib.Tactic.Ring

/-! # Big-endian numbers

Byte strings of one length are ordered as the numbers they stand for. -/

namespace GitCore

/-- The number of a byte string, most significant byte first. -/
def beNat : List UInt8 → Nat
  | [] => 0
  | x :: l => x.toNat * 256 ^ l.length + beNat l

theorem beNat_lt (l : List UInt8) : beNat l < 256 ^ l.length := by
  induction l with
  | nil => exact Nat.one_pos
  | cons x l ih =>
    have hx : x.toNat + 1 ≤ 256 := x.toNat_lt
    have hmul := Nat.mul_le_mul_right (256 ^ l.length) hx
    rw [beNat, List.length_cons, Nat.pow_succ, Nat.mul_comm (256 ^ l.length)]
    rw [Nat.add_mul, Nat.one_mul] at hmul
    omega

/-- **The order of byte strings** of one length is that of the numbers. -/
theorem lt_iff_beNat_lt {a b : List UInt8} (h : a.length = b.length) : a < b ↔ beNat a < beNat b := by
  induction a generalizing b with
  | nil =>
    grind
  | cons x a ih =>
    cases b with
    | nil => cases h
    | cons y b =>
      have hlen : a.length = b.length := Nat.succ.inj h
      have ha := beNat_lt a
      have hb := beNat_lt b
      rw [List.cons_lt_cons_iff, ih hlen, beNat, beNat, hlen, UInt8.lt_iff_toNat_lt]
      rw [hlen] at ha
      rcases lt_trichotomy x y with hxy | rfl | hxy
      · have hmul := Nat.mul_le_mul_right (256 ^ b.length)
          (show x.toNat + 1 ≤ y.toNat from UInt8.lt_iff_toNat_lt.mp hxy)
        rw [Nat.add_mul, Nat.one_mul] at hmul
        exact iff_of_true (.inl (UInt8.lt_iff_toNat_lt.mp hxy)) (by omega)
      · simp
      · have hlt := UInt8.lt_iff_toNat_lt.mp hxy
        have hmul := Nat.mul_le_mul_right (256 ^ b.length) (show y.toNat + 1 ≤ x.toNat from hlt)
        grind

end GitCore
