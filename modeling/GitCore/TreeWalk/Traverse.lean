import GitCore.Index.Entry
import GitCore.Lib.CInt

/-! # Walking several trees in parallel

`traverse_trees` of `tree-walk.c`. A tree is the list of its entries, in the order of
`base_name_compare`: a directory is sorted as if a slash followed its name. The position of an entry
in its tree stands for the pointer to its path. -/

namespace GitCore.TreeWalk

open Index (Name Oid nameCompare isDir)

/-- `struct name_entry` -/
structure NameEntry where
  path : Name
  mode : UInt32
  oid : Oid
  deriving DecidableEq, Repr

/-- `S_ISDIR` of the mode. -/
def NameEntry.isDirectory (e : NameEntry) : Bool := isDir e.mode

/-- The byte at which `base_name_compare` looks behind the common length: a slash behind the name of
a directory. -/
def byteBehind (name : Name) (mode : UInt32) (len : Nat) : UInt8 :=
  let c := name.getD len 0
  if c = 0 ∧ isDir mode then 47 else c

/-- `base_name_compare` -/
def baseNameCompare (name1 : Name) (mode1 : UInt32) (name2 : Name) (mode2 : UInt32) : Ordering :=
  let len := min name1.length name2.length
  match nameCompare (name1.take len) (name2.take len) with
  | .lt => .lt
  | .gt => .gt
  | .eq =>
    let c1 := byteBehind name1 mode1 len
    let c2 := byteBehind name2 mode2 len
    if c1 < c2 then .lt else if c2 < c1 then .gt else .eq

/-! ## One tree -/

/-- `struct tree_desc_x`: a tree, the position in it, and the entries behind this position that were
returned early. -/
structure TreeDescX where
  entries : List NameEntry
  pos : Nat
  skip : List Nat
  deriving Repr

/-- An entry and where it stands in its tree. -/
abbrev Found := Nat × NameEntry

/-- What `check_entry_match` returns: `-1`, `0` or `1`. -/
inductive Match
  | absent
  | same
  | keepLooking
  deriving DecidableEq, Repr

/-- `check_entry_match`: `a` is wanted from a tree, and `b` is looked at. -/
def checkEntryMatch (a b : Name) : Match :=
  match nameCompare a b with
  | .eq => .same
  | .gt => .keepLooking
  | .lt =>
    -- a directory named `a` may be hidden behind `b`; as a signed `char` a byte from 128 on is
    -- negative
    if a.length < b.length ∧ b.take a.length = a ∧
        (b.getD a.length 0 < 47 ∨ 128 ≤ b.getD a.length 0) then .keepLooking
    else .absent

/-- The first loop of `extended_entry_extract`: the entries that were returned early are passed
over. The first argument bounds the number of rounds. -/
def passSkipped (skip : List Nat) (size : Nat) : Nat → Nat → Nat
  | 0, pos => pos
  | fuel + 1, pos =>
    if pos < size ∧ skip.contains pos then passSkipped skip size fuel (pos + 1) else pos

/-- The look-ahead of `extended_entry_extract` in the entries from a position on. -/
def probe (first : Name) : Nat → List NameEntry → Option Found
  | _, [] => none
  | pos, a :: rest =>
    match checkEntryMatch first a.path with
    | .absent => none
    | .same => some (pos, a)
    | .keepLooking => probe first (pos + 1) rest

/-- The tree after the entries that were returned early. -/
def TreeDescX.advance (t : TreeDescX) : TreeDescX :=
  { t with pos := passSkipped t.skip t.entries.length (t.entries.length - t.pos) t.pos }

/-- The entry at the position. -/
def TreeDescX.current (t : TreeDescX) : Option Found := t.entries[t.pos]?.map fun a => (t.pos, a)

/-- `extended_entry_extract`: the first entry that was not returned yet, or the one that is named
`first`. -/
def extendedEntryExtract (t : TreeDescX) (first : Option Name) : TreeDescX × Option Found :=
  let t := t.advance
  match first, t.current with
  | none, found => (t, found)
  | some _, none => (t, none)
  | some first, some (pos, a) =>
    match checkEntryMatch first a.path with
    | .absent => (t, none)
    | .same => (t, some (pos, a))
    | .keepLooking => (t, probe first t.pos (t.entries.drop t.pos))

/-- `update_extended_entry` -/
def updateExtendedEntry (t : TreeDescX) (a : Found) : TreeDescX :=
  if t.pos = a.1 then { t with pos := t.pos + 1 } else { t with skip := a.1 :: t.skip }

/-! ## Several trees -/

/-- The earlier name of the one found so far and that of an entry. -/
def earlier (first : Option Name) (e : Option Found) : Option Name :=
  match e with
  | none => first
  | some e =>
    match first with
    | none => some e.2.path
    | some first => if nameCompare e.2.path first = .lt then some e.2.path else some first

/-- The least name by `name_compare`. -/
def firstName (entry : List (Option Found)) : Option Name := entry.foldl earlier none

/-- A mask with bit `i` for the `i`th of some conditions. -/
def maskOf : List Bool → Nat
  | [] => 0
  | b :: rest => (if b then 1 else 0) + 2 * maskOf rest

/-- What is passed to the callback. -/
structure Call where
  mask : Nat
  dirmask : Nat
  entry : List (Option NameEntry)
  deriving DecidableEq, Repr

/-- The fields of `struct traverse_info` that the loop reads. The pathspec is the function
`tree_entry_interesting` for it. -/
structure TraverseInfo where
  fn : Call → Int
  showAllErrors : Bool
  pathspec : Option (NameEntry → Int)

/-- The variables of the loop, and the calls that were made. -/
structure TraverseState where
  tx : List TreeDescX
  interesting : Int
  ret : Int
  calls : List Call

/-- `prune_traversal` -/
def pruneTraversal (info : TraverseInfo) (e : NameEntry) (stillInteresting : Int) : Int :=
  match info.pathspec with
  | none => 2
  | some entryInteresting =>
    if stillInteresting = 2 then 2
    else if stillInteresting < 0 then stillInteresting
    else entryInteresting e

/-- The trees whose bit is set in the mask are updated. -/
def updateTrees : Nat → List TreeDescX → List (Option Found) → List TreeDescX
  | mask, t :: tx, some a :: entry =>
    (if mask % 2 = 1 then updateExtendedEntry t a else t) :: updateTrees (mask / 2) tx entry
  | mask, t :: tx, none :: entry => t :: updateTrees (mask / 2) tx entry
  | _, tx, _ => tx

/-- The entries named `first` in all trees: the trees are searched again, and what has another name
is dropped. -/
def extractNamed (first : Name) (tx : List TreeDescX) : List (TreeDescX × Option Found) :=
  tx.map fun t =>
    let result := extendedEntryExtract t (some first)
    (result.1, result.2.filter fun a => nameCompare a.2.path first = .eq)

/-- The call for the entries that were found. -/
def callOf (entry : List (Option Found)) : Call where
  mask := maskOf (entry.map Option.isSome)
  dirmask := maskOf (entry.map fun a => a.any fun a => a.2.isDirectory)
  entry := entry.map (Option.map Prod.snd)

/-- One round of the loop, and whether there is another one. -/
def traverseRound (info : TraverseInfo) (st : TraverseState) : Bool × TraverseState :=
  let extracted := st.tx.map fun t => extendedEntryExtract t none
  let tx := extracted.map Prod.fst
  match firstName (extracted.map Prod.snd) with
  | none => (false, { st with tx := tx })
  | some first =>
    let named := extractNamed first tx
    let tx := named.map Prod.fst
    let entry := named.map Prod.snd
    match entry.reverse.findSome? id with
    | none => (false, { st with tx := tx })
    | some e =>
      let call := callOf entry
      let interesting := pruneTraversal info e.2 st.interesting
      let st := { st with tx := tx, interesting := interesting }
      if interesting < 0 then (false, st)
      else if interesting = 0 then (true, { st with tx := updateTrees call.mask tx entry })
      else
        let treesUsed := info.fn call
        let st := { st with calls := st.calls ++ [call], ret := if treesUsed < 0 then treesUsed else st.ret }
        if treesUsed < 0 ∧ !info.showAllErrors then (false, st)
        else (true, { st with tx := updateTrees (call.mask &&& toULong treesUsed) tx entry })

/-- The loop of `traverse_trees`, `none` if the rounds do not suffice. -/
def traverseLoop (info : TraverseInfo) : Nat → TraverseState → Option TraverseState
  | 0, _ => none
  | fuel + 1, st =>
    let result := traverseRound info st
    if result.1 then traverseLoop info fuel result.2 else some result.2

/-- `traverse_trees` -/
def traverseTrees (info : TraverseInfo) (fuel : Nat) (trees : List (List NameEntry)) :
    Option TraverseState :=
  traverseLoop info fuel
    { tx := trees.map fun entries => ⟨entries, 0, []⟩, interesting := 1, ret := 0, calls := [] }

end GitCore.TreeWalk
