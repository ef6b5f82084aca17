import GitCore.Delta.Index

/-! # `patch_delta`

The decoder reads two size headers and then replays opcodes until the delta is used up.
A `data` pointer is the list of the bytes that are left, so that `data < top` says the list is
not empty. A read at or beyond `top` is an outcome of its own (`PatchFailure.outOfBounds`): the
header reader looks at its first byte without a check. -/

namespace GitCore.Delta

/-- The ways in which `patch_delta` does not return a buffer. -/
inductive PatchFailure where
  /-- `NULL` is returned. -/
  | null
  /-- The process dies, as `st_left_shift` does on overflow. -/
  | die
  /-- The program has no defined behaviour: a byte at or beyond `top` is read, or a value is
  shifted by its full width. -/
  | outOfBounds
deriving DecidableEq, Repr

/-- `DELTA_SIZE_MIN` -/
def deltaSizeMin : Nat := 4

/-- `get_delta_hdr_size`, entered with the bits read so far in `size` and their number in `i`.
Returns the size and the bytes after the header. -/
def getDeltaHdrSize (i size : Nat) : Bytes → Except PatchFailure (Nat × Bytes)
  | [] => .error .outOfBounds
  | cmd :: data =>
    let bits := (cmd &&& 0x7f).toNat
    if 64 ≤ i then .error .outOfBounds
    else if (2 ^ 64 - 1) >>> i < bits then .error .die
    else
      let size := size ||| (bits <<< i)
      if cmd &&& 0x80 ≠ 0 ∧ data ≠ [] then getDeltaHdrSize (i + 7) size data
      else .ok (size, data)

/-- `PARSE_CP_PARAM(bit, var, shift)`: read a parameter byte if the opcode announces it. -/
def parseCpParam (cmd bit : UInt8) (shift : Nat) (var : Nat) (data : Bytes) :
    Except PatchFailure (Nat × Bytes) :=
  if cmd &&& bit ≠ 0 then
    match data with
    | [] => .error .null
    | b :: data => .ok (var ||| (b.toNat <<< shift), data)
  else .ok (var, data)

/-- The parameters of a copy opcode: offset, size and the bytes behind it. -/
def parseCopy (cmd : UInt8) (data : Bytes) : Except PatchFailure (Nat × Nat × Bytes) := do
  let (off, data) ← parseCpParam cmd 0x01 0 0 data
  let (off, data) ← parseCpParam cmd 0x02 8 off data
  let (off, data) ← parseCpParam cmd 0x04 16 off data
  let (off, data) ← parseCpParam cmd 0x08 24 off data
  let (size, data) ← parseCpParam cmd 0x10 0 0 data
  let (size, data) ← parseCpParam cmd 0x20 8 size data
  let (size, data) ← parseCpParam cmd 0x40 16 size data
  .ok (off, if size = 0 then 0x10000 else size, data)

/-- The replay loop: `size` output bytes are still expected, `out` holds those produced. Every
opcode takes at least its command byte, so the length of the delta is fuel enough. -/
def patchLoop (src : Bytes) : Nat → Bytes → Nat → Bytes → Except PatchFailure Bytes
  | _, [], size, out => if size = 0 then .ok out else .error .null
  | 0, _ :: _, _, _ => .error .null
  | fuel + 1, cmd :: data, size, out =>
    if cmd &&& 0x80 ≠ 0 then do
      let (cpOff, cpSize, data) ← parseCopy cmd data
      if 2 ^ 64 ≤ cpOff + cpSize ∨ src.length < cpOff + cpSize ∨ size < cpSize then .error .null
      else patchLoop src fuel data (size - cpSize) (out ++ (src.drop cpOff).take cpSize)
    else if cmd ≠ 0 then
      if size < cmd.toNat ∨ data.length < cmd.toNat then .error .null
      else patchLoop src fuel (data.drop cmd.toNat) (size - cmd.toNat) (out ++ data.take cmd.toNat)
    else .error .null

/-- `patch_delta` -/
def patchDelta (src delta : Bytes) : Except PatchFailure Bytes :=
  if delta.length < deltaSizeMin then .error .null
  else do
    let (size, data) ← getDeltaHdrSize 0 0 delta
    if size ≠ src.length then .error .null
    else
      let (size, data) ← getDeltaHdrSize 0 0 data
      patchLoop src data.length data size []

end GitCore.Delta
