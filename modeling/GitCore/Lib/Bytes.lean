import Mathlib.Data.Fintype.Basic

/-! # Bytes

A statement about all bytes can be decided by going through the 256 of them. -/

namespace GitCore

/-- The bytes are the numbers below 256. -/
@[elab_as_elim]
theorem forall_byte {motive : UInt8 → Prop} (h : ∀ n : Fin 256, motive (UInt8.ofFin n)) (b : UInt8) :
    motive b :=
  h b.toFin

end GitCore
