import GitCore.Index.Entry
import GitCore.Lib.BinarySearch

/-! # The cache-tree

The index carries a tree of the directories for which the tree object is known: each node has the
number of index entries below it, or a negative number if it is not valid, and the object id.
Changing an entry invalidates the nodes above it (`do_invalidate_path`), and `update_one` makes the
nodes valid again, which writes the tree objects that are missing. -/

namespace GitCore

open Index

/-! ## The tree -/

/-- `struct cache_tree`. Of a `struct cache_tree_sub` there are the name and the tree; its counters
live in the run of `update_one` that uses them. -/
inductive CacheTree where
  | node (entryCount : Int) (oid : Oid) (down : List (Name × Option CacheTree))

namespace CacheTree

/-- `down` -/
abbrev Subtrees := List (Name × Option CacheTree)

/-- `entry_count`, negative if the node is not valid. -/
def entryCount : CacheTree → Int
  | .node entryCount _ _ => entryCount

/-- `oid` -/
def oid : CacheTree → Oid
  | .node _ oid _ => oid

/-- `down` -/
def down : CacheTree → Subtrees
  | .node _ _ down => down

/-- `subtree_name_cmp`: shorter names come first. -/
def subtreeNameCmp (one two : Name) : Ordering :=
  (cmp one.length two.length).then (nameCompare one two)

/-- `cache_tree_subtree_pos` -/
def cacheTreeSubtreePos (down : Subtrees) (path : Name) : Nat ⊕ Nat :=
  binarySearch (fun sub => subtreeNameCmp path sub.1) down

/-- `find_subtree` without `create` -/
def findSubtree (down : Subtrees) (path : Name) : Option (Option CacheTree) :=
  match cacheTreeSubtreePos down path with
  | .inl pos => down[pos]?.map (·.2)
  | .inr _ => none

/-- `find_subtree` with `create`: the position of the subtree and the subtrees with it. -/
def createSubtree (down : Subtrees) (path : Name) : Nat × Subtrees :=
  match cacheTreeSubtreePos down path with
  | .inl pos => (pos, down)
  | .inr pos => (pos, down.take pos ++ (path, none) :: down.drop pos)

/-! ## Invalidation -/

/-- `do_invalidate_path`, for a tree that is not `NULL`. Every call takes a component of the path. -/
def doInvalidatePath : Nat → CacheTree → Name → CacheTree
  | 0, it, _ => it
  | fuel + 1, .node _ oid down, path =>
    match path.dropWhile (· ≠ 47) with
    | [] =>
      match cacheTreeSubtreePos down path with
      | .inl pos => .node (-1) oid (down.eraseIdx pos)
      | .inr _ => .node (-1) oid down
    | _ :: rest =>
      match cacheTreeSubtreePos down (path.takeWhile (· ≠ 47)) with
      | .inl pos =>
        .node (-1) oid (down.modify pos fun sub =>
          (sub.1, sub.2.map fun it => doInvalidatePath fuel it rest))
      | .inr _ => .node (-1) oid down

/-- `cache_tree_invalidate_path` -/
def cacheTreeInvalidatePath (tree : Option CacheTree) (path : Name) : Option CacheTree :=
  tree.map fun it => doInvalidatePath (path.length + 1) it path

/-! ## Validity -/

/-- The objects that are there, or that `HAS_OBJECT_FETCH_PROMISOR` can get. -/
abbrev Objects := Oid → Bool

mutual

/-- `cache_tree_fully_valid`, for a tree that is not `NULL`. -/
def fullyValid (objects : Objects) : CacheTree → Bool
  | .node entryCount oid down =>
    if entryCount < 0 ∨ objects oid then false else fullyValidDown objects down

/-- The loop over the subtrees. -/
def fullyValidDown (objects : Objects) : List (Name × Option CacheTree) → Bool
  | [] => true
  | (_, none) :: _ => false
  | (_, some it) :: down => if fullyValid objects it then fullyValidDown objects down else false

end

/-- `cache_tree_fully_valid` -/
def cacheTreeFullyValid (objects : Objects) : Option CacheTree → Bool
  | none => false
  | some it => fullyValid objects it

/-! ## The update -/

/-- What an update reads of the repository. -/
structure Repository where
  /-- `hash_object_file` of a tree -/
  hashTree : List UInt8 → Oid
  /-- `null_oid` -/
  nullOid : Oid
  /-- `repo_has_promisor_remote` -/
  hasPromisorRemote : Bool
  /-- The trees that `odb_write_object_ext` fails to write. -/
  writeFails : List UInt8 → Bool

/-- The flags of an update, without `WRITE_TREE_SILENT`. -/
structure WriteTreeFlags where
  missingOk : Bool
  dryRun : Bool
  repair : Bool
  deriving DecidableEq, Repr

/-- Why an update fails. -/
inductive UpdateError
  /-- `verify_cache` -/
  | unmerged
  /-- `assert(!(dryrun && repair))` -/
  | dryRunAndRepair
  /-- `index cache-tree records empty sub-tree` -/
  | emptySubtree
  /-- `not found`, with the component and the name -/
  | subtreeNotFound (component name : Name)
  /-- `invalid object`, with the mode, the object id and the name -/
  | invalidObject (mode : Nat) (oid : Oid) (name : Name)
  /-- The tree of a directory with intent-to-add entries is missing. -/
  | expectedMissing
  /-- `odb_write_object_ext` -/
  | writeFailed
  /-- The model has run out of fuel. -/
  | outOfFuel
  deriving DecidableEq

/-- The entry belongs to the directory `base`, which ends with a slash or is empty. -/
def inLevel (base : Name) (ce : CacheEntry) : Bool :=
  base.length < ce.name.length ∧ base <+: ce.name

/-- The next component of the name, if there is a slash behind it. -/
def subdirectory (base : Name) (ce : CacheEntry) : Option Name :=
  let path := ce.name.drop base.length
  if path.contains 47 then some (path.takeWhile (· ≠ 47)) else none

/-- The directory `name` in the directory `base`. -/
def subBase (base name : Name) : Name := base ++ name ++ [47]

/-- `cache_tree()` -/
def emptyTree (repo : Repository) : CacheTree := .node (-1) repo.nullOid []

/-- What `update_one` leaves: the number of entries, the node, the entries to be skipped and the
objects. -/
structure Updated where
  count : Nat
  tree : CacheTree
  skip : Nat
  objects : Objects

/-- The state of the loop that updates the subtrees. `used` has the subtrees with their counts. -/
structure Scan where
  down : Subtrees
  used : List (Name × Nat)
  skip : Nat
  objects : Objects

/-- The loop that finds the subtrees and updates them, with `update_one` as an argument. Every round
takes an entry at least. -/
def updateSubtrees (repo : Repository)
    (updateOne : CacheTree → List CacheEntry → Name → Objects → Except UpdateError Updated)
    (base : Name) : Nat → List CacheEntry → Scan → Except UpdateError Scan
  | _, [], scan => .ok scan
  | 0, _ :: _, _ => .error .outOfFuel
  | fuel + 1, ce :: entries, scan =>
    if inLevel base ce then
      match subdirectory base ce with
      | none => updateSubtrees repo updateOne base fuel entries scan
      | some name =>
        let created := createSubtree scan.down name
        let sub := (created.2[created.1]?.bind (·.2)).getD (emptyTree repo)
        match updateOne sub (ce :: entries) (subBase base name) scan.objects with
        | .error e => .error e
        | .ok updated =>
          if updated.count = 0 then .error .emptySubtree
          else
            updateSubtrees repo updateOne base fuel ((ce :: entries).drop updated.count)
              { down := created.2.set created.1 (name, some updated.tree)
                used := (name, updated.count) :: scan.used
                skip := scan.skip + updated.skip
                objects := updated.objects }
    else .ok scan

/-- `discard_unused_subtrees` -/
def discardUnusedSubtrees (scan : Scan) : Subtrees :=
  scan.down.filter fun sub => (scan.used.lookup sub.1).isSome

/-- The mode in octal digits, as `%o` prints it. -/
def octal (mode : Nat) : List UInt8 := (Nat.toDigits 8 mode).map fun c => UInt8.ofNat c.toNat

/-- The bytes of a tree entry. -/
def treeItem (mode : Nat) (name : Name) (oid : Oid) : List UInt8 :=
  octal mode ++ [32] ++ name ++ [0] ++ oid

/-- `must_check_existence` -/
def mustCheckExistence (repo : Repository) (ce : CacheEntry) : Bool :=
  !(repo.hasPromisorRemote && ce.skipWorktree)

/-- The object of an item is null, or it is missing and has to be there. -/
def isInvalidObject (repo : Repository) (flags : WriteTreeFlags) (objects : Objects) (ce : CacheEntry)
    (mode : Nat) (oid : Oid) : Bool :=
  oid = repo.nullOid ∨
    ¬ (mode = sIfgitlink ∨ flags.missingOk ∨ ¬ mustCheckExistence repo ce) ∧ ¬ objects oid

/-- The state of the loop that writes out the tree. -/
structure TreeBuffer where
  i : Nat
  buffer : List UInt8
  toInvalidate : Bool
  skip : Nat

/-- The loop that writes out the tree object of this level. Every round takes an entry at least. -/
def writeItems (repo : Repository) (flags : WriteTreeFlags) (objects : Objects) (down : Subtrees)
    (used : List (Name × Nat)) (base : Name) :
    Nat → List CacheEntry → TreeBuffer → Except UpdateError TreeBuffer
  | _, [], state => .ok state
  | 0, _ :: _, _ => .error .outOfFuel
  | fuel + 1, ce :: entries, state =>
    if inLevel base ce then
      match subdirectory base ce with
      | some name =>
        match findSubtree down name, used.lookup name with
        | some (some sub), some count =>
          let containsIta : Bool := sub.entryCount < 0
          if isInvalidObject repo flags objects ce sIfdir sub.oid then
            .error (if containsIta then .expectedMissing
              else .invalidObject sIfdir sub.oid (base ++ name))
          else
            let next (buffer : List UInt8) (skip : Nat) :=
              writeItems repo flags objects down used base fuel ((ce :: entries).drop count)
                { i := state.i + count
                  buffer := buffer
                  toInvalidate := state.toInvalidate || containsIta
                  skip := skip }
            if ce.remove then next state.buffer (state.skip + 1)
            else if containsIta ∧ sub.oid = repo.hashTree [] then next state.buffer state.skip
            else next (state.buffer ++ treeItem sIfdir name sub.oid) state.skip
        | _, _ => .error (.subtreeNotFound name ce.name)
      | none =>
        if isInvalidObject repo flags objects ce ce.mode.toNat ce.oid then
          .error (.invalidObject ce.mode.toNat ce.oid ce.name)
        else
          let next (buffer : List UInt8) (toInvalidate : Bool) (skip : Nat) :=
            writeItems repo flags objects down used base fuel entries
              { i := state.i + 1, buffer := buffer, toInvalidate := toInvalidate, skip := skip }
          if ce.remove then next state.buffer state.toInvalidate (state.skip + 1)
          else if ce.intentToAdd then next state.buffer true state.skip
          else
            next (state.buffer ++ treeItem ce.mode.toNat (ce.name.drop base.length) ce.oid)
              state.toInvalidate state.skip
    else .ok state

/-- The end of `update_one`: the object id of the tree, which is written unless the flags say
otherwise. A repair looks for the tree without a fetch; the same `Objects` answer here. -/
def finishTree (repo : Repository) (flags : WriteTreeFlags) (it : CacheTree) (down : Subtrees)
    (objects : Objects) (state : TreeBuffer) : Except UpdateError Updated :=
  let oid := repo.hashTree state.buffer
  let node (oid : Oid) (toInvalidate : Bool) (objects : Objects) : Updated :=
    { count := state.i
      tree := .node (if toInvalidate then -1 else (state.i : Int) - (state.skip : Int)) oid down
      skip := state.skip
      objects := objects }
  if flags.repair then
    if objects oid then .ok (node oid state.toInvalidate objects)
    else .ok (node it.oid true objects)
  else if flags.dryRun then .ok (node oid state.toInvalidate objects)
  else if repo.writeFails state.buffer then .error .writeFailed
  else .ok (node oid state.toInvalidate fun o => o = oid || objects o)

/-- `update_one`. A call for a subtree has a longer `base`. -/
def updateOne (repo : Repository) (flags : WriteTreeFlags) :
    Nat → CacheTree → List CacheEntry → Name → Objects → Except UpdateError Updated
  | 0, _, _, _, _ => .error .outOfFuel
  | fuel + 1, it, entries, base, objects =>
    if flags.dryRun ∧ flags.repair then .error .dryRunAndRepair
    else if entries.head?.any fun ce => ce.isSparseDir ∧ ce.name = base then
      .ok { count := 1
            tree := .node 1 ((entries.head?.map (·.oid)).getD []) it.down
            skip := 0
            objects := objects }
    else if 0 ≤ it.entryCount ∧ objects it.oid then
      .ok { count := it.entryCount.toNat, tree := it, skip := 0, objects := objects }
    else
      match updateSubtrees repo (updateOne repo flags fuel) base entries.length entries
          { down := it.down, used := [], skip := 0, objects := objects } with
      | .error e => .error e
      | .ok scan =>
        let down := discardUnusedSubtrees scan
        match writeItems repo flags scan.objects down scan.used base entries.length entries
            { i := 0, buffer := [], toInvalidate := false, skip := scan.skip } with
        | .error e => .error e
        | .ok state => finishTree repo flags it down scan.objects state

/-- `verify_cache`: there are neither unmerged entries nor, next to each other, a file and a directory
of the same name. -/
def verifyCache : List CacheEntry → Bool
  | [] => true
  | [ce] => ce.stage = mergedStage
  | ce :: next :: entries =>
    ce.stage = mergedStage ∧ ¬ (ce.name ++ [47]) <+: next.name ∧ verifyCache (next :: entries)

/-- The length of the longest name. -/
def maxNameLength (entries : List CacheEntry) : Nat :=
  (entries.map fun ce => ce.name.length).foldr max 0

/-- `cache_tree_update` -/
def cacheTreeUpdate (repo : Repository) (flags : WriteTreeFlags) (tree : Option CacheTree)
    (entries : List CacheEntry) (objects : Objects) : Except UpdateError Updated :=
  if verifyCache entries then
    updateOne repo flags (maxNameLength entries + 1) (tree.getD (emptyTree repo)) entries [] objects
  else .error .unmerged

end CacheTree

end GitCore
