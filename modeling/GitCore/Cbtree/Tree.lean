import GitCore.Lib.ByteOrder
import GitCore.Lib.Bytes
import GitCore.Lib.CritBit
import Mathlib.Data.Nat.Bitwise

/-! # Crit-bit trees

A node of the tree is a leaf with its key, and may serve as an inner node at the same time: it then
says with `byte` and `otherbits` at which bit the keys below it differ for the first time. The two
roles use different fields, so a tree of leaves and of inner nodes is the whole state. Nodes are of
any type with a function that gives the bytes of the key. -/

namespace GitCore.Cbtree

open List

/-! ## The code -/

/-- A non-null `struct cb_node *`, with its lowest bit as the constructor. -/
inductive CbNode (ν : Type) where
  /-- A node as a leaf -/
  | leaf (p : ν)
  /-- The `byte`, `otherbits` and children of a node -/
  | inner (byte : Nat) (otherbits : UInt8) (child0 child1 : CbNode ν)

/-- `struct cb_tree` -/
abbrev CbTree (ν : Type) := Option (CbNode ν)

/-- The byte of a key, or zero behind its end. -/
def byteAt (k : List UInt8) (klen byte : Nat) : UInt8 := if byte < klen then k.getD byte 0 else 0

/-- `(1 + (otherbits | c)) >> 8` -/
def direction (otherbits c : UInt8) : Nat := (1 + (otherbits ||| c).toNat) >>> 8

/-- `cb_internal_best_match` -/
def cbInternalBestMatch {ν : Type} (k : List UInt8) (klen : Nat) : CbNode ν → ν
  | .leaf p => p
  | .inner byte otherbits child0 child1 =>
    if direction otherbits (byteAt k klen byte) = 0 then cbInternalBestMatch k klen child0
    else cbInternalBestMatch k klen child1

/-- The loop that looks for the first differing byte, with the number of bytes that are left. -/
def differentByte (a b : List UInt8) : Nat → Nat → Option Nat
  | 0, _ => none
  | left + 1, newbyte =>
    if a.getD newbyte 0 = b.getD newbyte 0 then differentByte a b left (newbyte + 1)
    else some newbyte

/-- `newotherbits` of two bytes. -/
def otherbitsOf (a b : UInt8) : UInt8 :=
  let bits := a ^^^ b
  let bits := bits ||| (bits >>> 1)
  let bits := bits ||| (bits >>> 2)
  let bits := bits ||| (bits >>> 4)
  (bits &&& ~~~(bits >>> 1)) ^^^ 255

/-- The new node with its `byte`, of which 32 bits are kept, `otherbits` and children. -/
def linkNode {ν : Type} (node : ν) (newbyte : Nat) (newotherbits : UInt8) (newdirection : Nat)
    (p : CbNode ν) : CbNode ν :=
  if newdirection = 0 then .inner (newbyte % 2 ^ 32) newotherbits p (.leaf node)
  else .inner (newbyte % 2 ^ 32) newotherbits (.leaf node) p

section Keys

variable {ν : Type} (key : ν → List UInt8)

/-- The loop that finds a place for the new node. -/
def placeNode (klen : Nat) (node : ν) (newbyte : Nat) (newotherbits : UInt8) (newdirection : Nat) :
    CbNode ν → CbNode ν
  | .leaf p => linkNode node newbyte newotherbits newdirection (.leaf p)
  | .inner byte otherbits child0 child1 =>
    if byte > newbyte then
      linkNode node newbyte newotherbits newdirection (.inner byte otherbits child0 child1)
    else if byte = newbyte ∧ otherbits > newotherbits then
      linkNode node newbyte newotherbits newdirection (.inner byte otherbits child0 child1)
    else if direction otherbits (byteAt (key node) klen byte) = 0 then
      .inner byte otherbits
        (placeNode klen node newbyte newotherbits newdirection child0) child1
    else
      .inner byte otherbits child0
        (placeNode klen node newbyte newotherbits newdirection child1)

/-- `cb_insert`: the tree afterwards, and the node that existed already. -/
def cbInsert (t : CbTree ν) (node : ν) (klen : Nat) : CbTree ν × Option ν :=
  match t with
  | none => (some (.leaf node), none)
  | some root =>
    let p := cbInternalBestMatch (key node) klen root
    match differentByte (key p) (key node) klen 0 with
    | none => (some root, some p)
    | some newbyte =>
      let c := (key p).getD newbyte 0
      let newotherbits := otherbitsOf c ((key node).getD newbyte 0)
      let newdirection := direction newotherbits c
      (some (placeNode key klen node newbyte newotherbits newdirection root), none)

/-- `cb_lookup` -/
def cbLookup (t : CbTree ν) (k : List UInt8) (klen : Nat) : Option ν :=
  match t with
  | none => none
  | some root =>
    let p := cbInternalBestMatch k klen root
    if (key p).take klen = k.take klen then some p else none

/-- `enum cb_next` -/
inductive CbNext
  | continue
  | break
deriving DecidableEq, Repr

/-- `cb_descend`, with a state for the callback. -/
def cbDescend {σ : Type} (fn : ν → σ → CbNext × σ) : CbNode ν → σ → CbNext × σ
  | .leaf p, s => fn p s
  | .inner _ _ child0 child1, s =>
    match cbDescend fn child0 s with
    | (.break, s) => (.break, s)
    | (.continue, s) => cbDescend fn child1 s

/-- The walk of `cb_each`: the leaf it ends at, and `top`. -/
def eachWalk (kpfx : List UInt8) (klen : Nat) (top : CbNode ν) : CbNode ν → ν × CbNode ν
  | .leaf p => (p, top)
  | .inner byte otherbits child0 child1 =>
    if direction otherbits (byteAt kpfx klen byte) = 0 then
      eachWalk kpfx klen (if byte < klen then child0 else top) child0
    else eachWalk kpfx klen (if byte < klen then child1 else top) child1

/-- `cb_each`, with a state for the callback. -/
def cbEach {σ : Type} (t : CbTree ν) (kpfx : List UInt8) (klen : Nat) (fn : ν → σ → CbNext × σ)
    (s : σ) : σ :=
  match t with
  | none => s
  | some root =>
    let out := eachWalk kpfx klen root root
    match differentByte (key out.1) kpfx klen 0 with
    | some _ => s
    | none => (cbDescend fn out.2 s).2

end Keys

/-! ## Bits of a byte -/

/-- The byte with all bits but one: the bit at a position, counted from the highest one. -/
def maskAt (pos : Fin 8) : UInt8 := ~~~(128 >>> UInt8.ofNat pos.val)

/-- The position of the bit that `otherbits` leaves out. -/
def positionOf (otherbits : UInt8) : Nat := 7 - (255 - otherbits.toNat).log2

/-- The bit of a byte at a position, counted from the highest one. -/
def byteBit (c : UInt8) (pos : Nat) : Bool := c.toNat.testBit (7 - pos)

theorem positionOf_maskAt (pos : Fin 8) : positionOf (maskAt pos) = pos := by
  revert pos
  decide

theorem maskAt_lt_iff (pos pos' : Fin 8) : maskAt pos < maskAt pos' ↔ pos < pos' := by
  revert pos pos'
  decide

/-- The direction is the bit. -/
theorem direction_maskAt (pos : Fin 8) (c : UInt8) :
    direction (maskAt pos) c = if byteBit c pos then 1 else 0 := by
  induction c using forall_byte with
  | h n =>
    revert pos n
    decide +kernel

/-- Which bit `otherbitsOf` leaves out depends on the bits that differ. -/
theorem otherbitsOf_zero (x : UInt8) (hx : x ≠ 0) : ∃ pos : Fin 8, otherbitsOf x 0 = maskAt pos ∧
    byteBit x pos = true ∧ ∀ j < pos, byteBit x j = false := by
  induction x using forall_byte with
  | h n =>
    revert n
    decide +kernel

theorem byteBit_xor (a b : UInt8) (pos : Nat) :
    byteBit (a ^^^ b) pos = (byteBit a pos ^^ byteBit b pos) := by
  unfold byteBit
  rw [UInt8.toNat_xor, Nat.testBit_xor]

/-- **The critical bit** of two different bytes. -/
theorem otherbitsOf_spec {a b : UInt8} (h : a ≠ b) : ∃ pos : Fin 8, otherbitsOf a b = maskAt pos ∧
    byteBit a pos ≠ byteBit b pos ∧ ∀ j < pos, byteBit a j = byteBit b j := by
  have hx : a ^^^ b ≠ 0 := fun hx => h (UInt8.xor_eq_zero_iff.mp hx)
  obtain ⟨pos, hmask, hset, hunset⟩ := otherbitsOf_zero (a ^^^ b) hx
  refine ⟨pos, ?_, ?_, fun j hj => ?_⟩
  · rw [← hmask]
    simp [otherbitsOf]
  · rw [byteBit_xor] at hset
    simpa using hset
  · have := hunset j hj
    rw [byteBit_xor] at this
    simpa using this

/-- A byte is given by its bits. -/
theorem eq_of_byteBit {a b : UInt8} (h : ∀ pos < 8, byteBit a pos = byteBit b pos) : a = b := by
  by_contra hne
  obtain ⟨pos, -, hbit, -⟩ := otherbitsOf_spec hne
  exact hbit (h pos pos.isLt)

/-- A byte is smaller if it has a bit unset that the other one has, and agrees with it before. -/
theorem lt_of_byteBit {a b : UInt8} {pos : Nat} (hpos : pos < 8)
    (hagree : ∀ j < pos, byteBit a j = byteBit b j) (ha : byteBit a pos = false)
    (hb : byteBit b pos = true) : a < b := by
  rw [UInt8.lt_iff_toNat_lt]
  refine Nat.lt_of_testBit (7 - pos) ha hb fun j hj => ?_
  by_cases hj7 : j ≤ 7
  · have := hagree (7 - j) (by omega)
    unfold byteBit at this
    rwa [show 7 - (7 - j) = j by omega] at this
  · have hbig : 2 ^ 8 ≤ 2 ^ j := Nat.pow_le_pow_right Nat.two_pos (by omega)
    rw [Nat.testBit_lt_two_pow (a.toNat_lt.trans_le hbig),
      Nat.testBit_lt_two_pow (b.toNat_lt.trans_le hbig)]

/-! ## Bits of a key -/

/-- A bit of a key, counted from the highest one of the first byte. -/
def keyBit (k : List UInt8) (klen i : Nat) : Bool := byteBit (byteAt k klen (i / 8)) (i % 8)

theorem keyBit_eq (k : List UInt8) (klen byte : Nat) {pos : Nat} (hpos : pos < 8) :
    keyBit k klen (8 * byte + pos) = byteBit (byteAt k klen byte) pos := by
  unfold keyBit
  rw [show (8 * byte + pos) / 8 = byte by omega, show (8 * byte + pos) % 8 = pos by omega]

/-- Keys agree on bits of whole bytes if they agree on the bytes. -/
theorem forall_keyBit_iff {k k' : List UInt8} {klen klen' n : Nat} :
    (∀ i < 8 * n, keyBit k klen i = keyBit k' klen' i) ↔
      ∀ byte < n, byteAt k klen byte = byteAt k' klen' byte := by
  constructor
  · intro h byte hbyte
    refine eq_of_byteBit fun pos hpos => ?_
    rw [← keyBit_eq k klen byte hpos, ← keyBit_eq k' klen' byte hpos]
    exact h _ (by omega)
  · intro h i hi
    unfold keyBit
    rw [h (i / 8) (by omega)]

/-- Bytes within the length are those of the key. -/
theorem byteAt_of_lt {k : List UInt8} {klen byte : Nat} (h : byte < klen) :
    byteAt k klen byte = k.getD byte 0 := if_pos h

/-- Equal bytes make equal beginnings. -/
theorem take_eq_take_iff {k k' : List UInt8} {n : Nat} (hk : n ≤ k.length) (hk' : n ≤ k'.length) :
    k.take n = k'.take n ↔ ∀ byte < n, k.getD byte 0 = k'.getD byte 0 := by
  constructor
  · intro h byte hbyte
    rw [getD_eq_getElem?_getD, getD_eq_getElem?_getD, ← getElem?_take_of_lt hbyte, h,
      getElem?_take_of_lt hbyte]
  intro h
  refine ext_getElem (by simp [hk, hk']) fun byte h1 h2 => ?_
  grind

/-- **The loop over the bytes**: none differ, or it finds the first that does. -/
theorem differentByte_cases (a b : List UInt8) (left newbyte : Nat) :
    differentByte a b left newbyte = none ∧
        (∀ i < left, a.getD (newbyte + i) 0 = b.getD (newbyte + i) 0) ∨
      ∃ n < left, differentByte a b left newbyte = some (newbyte + n) ∧
        (∀ i < n, a.getD (newbyte + i) 0 = b.getD (newbyte + i) 0) ∧
        a.getD (newbyte + n) 0 ≠ b.getD (newbyte + n) 0 := by
  induction left generalizing newbyte with
  | zero => exact .inl ⟨rfl, fun i hi => absurd hi (Nat.not_lt_zero i)⟩
  | succ left ih =>
    unfold differentByte
    split_ifs with hsame
    · have hcons : ∀ n, (∀ i < n, a.getD (newbyte + 1 + i) 0 = b.getD (newbyte + 1 + i) 0) →
          ∀ i < n + 1, a.getD (newbyte + i) 0 = b.getD (newbyte + i) 0 := by
        intro n h i hi
        cases i with
        | zero => exact hsame
        | succ i =>
          grind
      rcases ih (newbyte + 1) with ⟨hnone, hall⟩ | ⟨n, hn, hsome, hall, hne⟩
      · exact .inl ⟨hnone, hcons left hall⟩
      refine .inr ⟨n + 1, by omega, ?_, hcons n hall, ?_⟩
      · rw [hsome, Nat.add_right_comm, Nat.add_assoc]
      · rwa [Nat.add_right_comm] at hne
    · exact .inr ⟨0, by omega, rfl, fun i hi => absurd hi (Nat.not_lt_zero i), hsame⟩

/-! ## The tree by its bits -/

variable {ν : Type}

/-- The tree with the numbers of its bits. -/
def CbNode.toBits : CbNode ν → BitTree ν
  | .leaf p => .leaf p
  | .inner byte otherbits child0 child1 =>
    .node (8 * byte + positionOf otherbits) child0.toBits child1.toBits

theorem toBits_inner (byte : Nat) (pos : Fin 8) (child0 child1 : CbNode ν) :
    (CbNode.inner byte (maskAt pos) child0 child1).toBits =
      .node (8 * byte + pos) child0.toBits child1.toBits := by
  rw [CbNode.toBits, positionOf_maskAt]

/-- Every inner node looks at one bit. -/
inductive CbNode.OneBit : CbNode ν → Prop
  | leaf (p : ν) : OneBit (.leaf p)
  | inner (byte : Nat) (pos : Fin 8) {child0 child1 : CbNode ν} (h0 : child0.OneBit)
      (h1 : child1.OneBit) : OneBit (.inner byte (maskAt pos) child0 child1)

/-- The direction at an inner node is the bit of the key. -/
theorem direction_eq_zero_iff (pos : Fin 8) (k : List UInt8) (klen byte : Nat) :
    direction (maskAt pos) (byteAt k klen byte) = 0 ↔
      ¬ keyBit k klen (8 * byte + pos) = true := by
  rw [direction_maskAt, keyBit_eq k klen byte pos.isLt]
  cases byteBit (byteAt k klen byte) pos <;> simp

/-- The best match is found by the bits. -/
theorem cbInternalBestMatch_eq {t : CbNode ν} (h : t.OneBit) (k : List UInt8) (klen : Nat) :
    cbInternalBestMatch k klen t = t.toBits.search (keyBit k klen) := by
  induction h with
  | leaf p => rfl
  | inner byte pos h0 h1 ih0 ih1 =>
    rw [cbInternalBestMatch, toBits_inner, BitTree.search, ih0, ih1]
    by_cases hbit : keyBit k klen (8 * byte + pos) = true
    · rw [if_pos hbit, if_neg (mt (direction_eq_zero_iff pos k klen byte).mp (not_not.mpr hbit))]
    · rw [if_neg hbit, if_pos ((direction_eq_zero_iff pos k klen byte).mpr hbit)]

section Keyed

variable (key : ν → List UInt8) (klen : Nat)

/-- The bits of the key of a node. -/
def nodeBit (v : ν) (i : Nat) : Bool := keyBit (key v) klen i

section Place

variable (node : ν) {newbyte : Nat} (hsmall : newbyte < 2 ^ 32) (pos : Fin 8) {newdirection : Nat}
  (hdir : newdirection = 0 ↔ nodeBit key klen node (8 * newbyte + pos) = true) {t : CbNode ν}
  (h : t.OneBit)

include hsmall hdir h

/-- The new node is linked in under the differing bit. -/
theorem linkNode_spec : (linkNode node newbyte (maskAt pos) newdirection t).OneBit ∧
    (linkNode node newbyte (maskAt pos) newdirection t).toBits =
      BitTree.join (nodeBit key klen) (8 * newbyte + pos) node t.toBits := by
  unfold linkNode BitTree.join
  by_cases hzero : newdirection = 0
  · rw [if_pos hzero, if_pos (hdir.mp hzero), toBits_inner, Nat.mod_eq_of_lt hsmall]
    exact ⟨.inner _ pos h (.leaf node), rfl⟩
  · rw [if_neg hzero, if_neg (mt hdir.mpr hzero), toBits_inner, Nat.mod_eq_of_lt hsmall]
    exact ⟨.inner _ pos (.leaf node) h, rfl⟩

/-- **The place of a new node** is found by the bits. -/
theorem toBits_placeNode :
    (placeNode key klen node newbyte (maskAt pos) newdirection t).OneBit ∧
      (placeNode key klen node newbyte (maskAt pos) newdirection t).toBits =
        t.toBits.insertAt (nodeBit key klen) (8 * newbyte + pos) node := by
  induction h with
  | leaf p => exact linkNode_spec key klen node hsmall pos hdir (.leaf p)
  | @inner byte pos' child0 child1 h0 h1 ih0 ih1 =>
    have hlink := linkNode_spec key klen node hsmall pos hdir (.inner byte pos' h0 h1)
    rw [placeNode]
    rw [toBits_inner] at hlink ⊢
    rw [BitTree.insertAt]
    split
    · rw [if_pos (by omega)]
      exact hlink
    by_cases hsame : byte = newbyte ∧ maskAt pos' > maskAt pos
    · have hlt : pos.val < pos'.val := (maskAt_lt_iff pos pos').mp hsame.2
      rw [if_pos hsame, if_pos (by omega)]
      exact hlink
    have hle : ¬ 8 * newbyte + pos.val < 8 * byte + pos'.val := by
      intro hlt
      exact hsame ⟨by omega, (maskAt_lt_iff pos pos').mpr (Fin.lt_def.mpr (by omega))⟩
    rw [if_neg hsame, if_neg hle]
    have hdirection := direction_eq_zero_iff pos' (key node) klen byte
    by_cases hbit : nodeBit key klen node (8 * byte + pos') = true
    · rw [if_neg (mt hdirection.mp (not_not.mpr hbit)), if_pos hbit, toBits_inner, ih1.2]
      exact ⟨.inner byte pos' h0 ih1.1, rfl⟩
    · rw [if_pos (hdirection.mpr hbit), if_neg hbit, toBits_inner, ih0.2]
      exact ⟨.inner byte pos' ih0.1 h1, rfl⟩

end Place

end Keyed

end GitCore.Cbtree
