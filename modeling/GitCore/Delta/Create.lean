import GitCore.Delta.Index

/-! # `create_delta`

The encoder walks over the target and emits literal bytes until the index yields a match of at
least four bytes, which becomes a copy opcode. `DeltaState.out` holds the bytes below `outpos`,
so `outpos` is its length, `outpos--` is `dropLast`, and the slot that later receives the length
of the pending literal run is a byte of `out` that is overwritten by `patchCount`.

`moff` and `msize` survive from one round to the next: a match longer than 64 KiB is copied in
pieces, and a match found while the previous one is still short competes with it. -/

namespace GitCore.Delta

/-- `MAX_OP_SIZE` -/
def maxOpSize : Nat := 5 + 5 + 1 + rabinWindow + 7

/-- The loop that stores a buffer size, least significant seven bits first, for a size that
needs at most `fuel + 1` bytes. -/
def putHdrSize : Nat → Nat → Bytes
  | 0, l => [UInt8.ofNat l]
  | fuel + 1, l =>
    if 0x80 ≤ l then UInt8.ofNat (l ||| 0x80) :: putHdrSize fuel (l >>> 7) else [UInt8.ofNat l]

/-- A size header: an `unsigned long` takes at most ten bytes. -/
def hdrSize (l : Nat) : Bytes := putHdrSize 9 l

/-- The local variables of `create_delta` that its main loop changes. -/
structure DeltaState where
  /-- `out[0 .. outpos)` -/
  out : Bytes
  /-- The allocated size of `out`. -/
  outsize : Nat
  /-- `data - trg_buf` -/
  data : Nat
  /-- The rolling hash of the last 16 target bytes. -/
  val : UInt32
  /-- The number of pending literals at the end of `out`, behind their count slot. -/
  inscnt : Nat
  /-- The source offset of the best match so far. -/
  moff : Nat
  /-- The length of the best match so far. -/
  msize : Nat
deriving DecidableEq, Repr

/-! ## Searching a match -/

/-- `while (ref_size-- && *src++ == *ref) ref++;` as the number of equal bytes. -/
def matchLen : Nat → Bytes → Bytes → Nat
  | n + 1, r :: ref, s :: src => if s = r then matchLen n ref src + 1 else 0
  | _, _, _ => 0

/-- The loop over the entries of one bucket, looking for a match at target position `data` that
is longer than the one at hand. The first component of the result is `msize`, the second `moff`.
`ref_size` is an `unsigned int`, so the distance to the end of the source is cut to 32 bits. -/
def findMatch (src trg : Bytes) (data : Nat) (val : UInt32) :
    List IndexEntry → Nat → Nat → Nat × Nat
  | [], msize, moff => (msize, moff)
  | entry :: entries, msize, moff =>
    if entry.val ≠ val then findMatch src trg data val entries msize moff
    else
      let refSize := min ((src.length - entry.ptr) % 2 ^ 32) (trg.length - data)
      if refSize ≤ msize then (msize, moff)
      else
        let len := matchLen refSize (src.drop entry.ptr) (trg.drop data)
        if msize < len then
          if 4096 ≤ len then (len, entry.ptr)
          else findMatch src trg data val entries len entry.ptr
        else findMatch src trg data val entries msize moff

/-- `val ^= U[data[-RABIN_WINDOW]]` followed by a hash step with `*data`. -/
def rollHash (trg : Bytes) (data : Nat) (val : UInt32) : UInt32 :=
  rabinStep (val ^^^ rabinU.getD (trg.getD (data - rabinWindow) 0).toNat 0) (trg.getD data 0)

/-- The search at the head of a round, skipped while a long match is being copied. -/
def searchStep (index : DeltaIndex) (trg : Bytes) (s : DeltaState) : DeltaState :=
  if s.msize < 4096 then
    let val := rollHash trg s.data s.val
    let bucket := index.hash.getD (val &&& index.hashMask).toNat []
    let found := findMatch index.src trg s.data val bucket s.msize s.moff
    { s with val := val, msize := found.1, moff := found.2 }
  else s

/-! ## Emitting literals and copies -/

/-- `out[outpos - inscnt - 1] = inscnt` -/
def patchCount (out : Bytes) (inscnt : Nat) : Bytes :=
  out.set (out.length - inscnt - 1) (UInt8.ofNat inscnt)

/-- The branch for `msize < 4`: append one literal, opening or closing a run as needed. -/
def literalStep (trg : Bytes) (s : DeltaState) : DeltaState :=
  let slot := if s.inscnt = 0 then s.out ++ [0] else s.out
  let out := slot ++ [trg.getD s.data 0]
  let inscnt := s.inscnt + 1
  if inscnt = 0x7f then
    { s with out := patchCount out inscnt, data := s.data + 1, inscnt := 0, msize := 0 }
  else { s with out := out, data := s.data + 1, inscnt := inscnt, msize := 0 }

/-- The loop that extends a match backwards over the pending literals, each round taking the
last of them back. It runs at most `inscnt` times; when it has taken all of them, the count slot
goes too. -/
def extendBackwards (src trg : Bytes) : Nat → DeltaState → DeltaState
  | 0, s => s
  | fuel + 1, s =>
    if s.moff ≠ 0 ∧ src.getD (s.moff - 1) 0 = trg.getD (s.data - 1) 0 then
      let s' := { s with
        msize := s.msize + 1, moff := s.moff - 1, data := s.data - 1
        out := s.out.dropLast, inscnt := s.inscnt - 1 }
      if s'.inscnt ≠ 0 then extendBackwards src trg fuel s'
      else { s' with out := s'.out.dropLast }
    else s

/-- Close the pending literal run in front of a copy. When the backward extension has used up
the whole run, the source stores its `inscnt` of −1 at `out[outpos]`, where the opcode that
follows overwrites it. -/
def closeRun (src trg : Bytes) (s : DeltaState) : DeltaState :=
  if s.inscnt = 0 then s
  else
    let s' := extendBackwards src trg s.inscnt s
    if s'.inscnt = 0 then s' else { s' with out := patchCount s'.out s'.inscnt, inscnt := 0 }

/-- Byte `k` of a number. -/
def byteAt (n k : Nat) : UInt8 := UInt8.ofNat (n >>> (8 * k))

/-- A parameter byte of a copy opcode, left out when it is zero. -/
def cpByte (b : UInt8) : Bytes := if b = 0 then [] else [b]

/-- The first byte of a copy opcode: which parameter bytes follow. -/
def cpCmd (o0 o1 o2 o3 s0 s1 : Bool) : UInt8 :=
  0x80 ||| (if o0 then 0x01 else 0) ||| (if o1 then 0x02 else 0) ||| (if o2 then 0x04 else 0)
    ||| (if o3 then 0x08 else 0) ||| (if s0 then 0x10 else 0) ||| (if s1 then 0x20 else 0)

/-- The bytes of a copy opcode. -/
def copyOp (moff msize : Nat) : Bytes :=
  cpCmd (byteAt moff 0 ≠ 0) (byteAt moff 1 ≠ 0) (byteAt moff 2 ≠ 0) (byteAt moff 3 ≠ 0)
      (byteAt msize 0 ≠ 0) (byteAt msize 1 ≠ 0) ::
    (cpByte (byteAt moff 0) ++ cpByte (byteAt moff 1) ++ cpByte (byteAt moff 2)
      ++ cpByte (byteAt moff 3) ++ cpByte (byteAt msize 0) ++ cpByte (byteAt msize 1))

/-- `left`, the part of a match beyond the 64 KiB of one opcode, an `unsigned int`. -/
def leftOver (msize : Nat) : Nat := if msize < 0x10000 then 0 else (msize - 0x10000) % 2 ^ 32

/-- The branch for a match of at least four bytes. What is left over of the match is carried to
the next round, unless its source offset no longer fits 32 bits. -/
def copyStep (src trg : Bytes) (s : DeltaState) : DeltaState :=
  let s := closeRun src trg s
  let left := leftOver s.msize
  let size := s.msize - left
  let data := s.data + size
  let moff := s.moff + size
  let msize := if 0xffffffff < moff then 0 else left
  let val := if msize < 4096 then
      rabinHash 0 ((trg.drop (data - rabinWindow)).take rabinWindow) else s.val
  { s with out := s.out ++ copyOp s.moff size, data := data, moff := moff, msize := msize, val := val }

/-- One round of the main loop, up to the growing of `out`. -/
def emitStep (index : DeltaIndex) (trg : Bytes) (s : DeltaState) : DeltaState :=
  let s := searchStep index trg s
  if s.msize < 4 then literalStep trg s else copyStep index.src trg s

/-- The size `out` grows to. -/
def growSize (maxSize outsize : Nat) : Nat :=
  let outsize := outsize * 3 / 2
  if maxSize ≠ 0 ∧ maxSize ≤ outsize then maxSize + maxOpSize + 1 else outsize

/-- The main loop. Every round consumes target bytes, so that as many rounds as there are bytes
left are enough. The loop is also left once the delta has outgrown `max_size`. -/
def deltaLoop (index : DeltaIndex) (trg : Bytes) (maxSize : Nat) : Nat → DeltaState → DeltaState
  | 0, s => s
  | fuel + 1, s =>
    if s.data < trg.length then
      let s := emitStep index trg s
      if s.outsize - maxOpSize ≤ s.out.length then
        let s := { s with outsize := growSize maxSize s.outsize }
        if maxSize ≠ 0 ∧ maxSize < s.out.length then s
        else deltaLoop index trg maxSize fuel s
      else deltaLoop index trg maxSize fuel s
    else s

/-! ## The whole function -/

/-- The first literal run: at most one hash window of target bytes behind their count slot. -/
def deltaInit (index : DeltaIndex) (trg : Bytes) (maxSize : Nat) : DeltaState :=
  let outsize := 8192
  let window := trg.take rabinWindow
  { out := hdrSize index.src.length ++ hdrSize trg.length ++ 0 :: window
    outsize := if maxSize ≠ 0 ∧ maxSize ≤ outsize then maxSize + maxOpSize + 1 else outsize
    data := window.length
    val := rabinHash 0 window
    inscnt := window.length
    moff := 0
    msize := 0 }

/-- `create_delta`; `none` is the `NULL` returned for an empty target or a delta that outgrows
a non-zero `max_size`. -/
def createDelta (index : DeltaIndex) (trg : Bytes) (maxSize : Nat) : Option Bytes :=
  if trg = [] then none
  else
    let s := deltaLoop index trg maxSize trg.length (deltaInit index trg maxSize)
    let out := if s.inscnt = 0 then s.out else patchCount s.out s.inscnt
    if maxSize ≠ 0 ∧ maxSize < out.length then none else some out

end GitCore.Delta
