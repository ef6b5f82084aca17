import GitCore.Lib.ByteOrder

/-! # The notes tree

A 16-tree of notes: a node of level `n` has a slot for each value of the `n`th hexadecimal digit of
an object id, with nothing, a note or another node in it. The tree has no subtrees that are still to
be loaded. A search gives the slot that belongs to an id, which is then read and written through a
pointer; here it is read by `noteTreeSearch` and written by `noteTreeStore`. -/

namespace GitCore.Notes

/-! ## Object ids -/

/-- `the_hash_algo` -/
inductive HashAlgo
  | sha1
  | sha256
deriving DecidableEq, Repr

/-- `rawsz` -/
def HashAlgo.rawsz : HashAlgo → Nat
  | sha1 => 20
  | sha256 => 32

/-- `GIT_MAX_RAWSZ` -/
def gitMaxRawsz : Nat := 32

/-- An object id. -/
abbrev Oid (algo : HashAlgo) := { hash : List UInt8 // hash.length = algo.rawsz }

variable {algo : HashAlgo} {σ : Type}

/-- The null id. -/
def nullOid (algo : HashAlgo) : Oid algo := ⟨List.replicate algo.rawsz 0, List.length_replicate⟩

/-- `GET_NIBBLE` -/
def getNibble (n : Nat) (key : Oid algo) : Fin 16 :=
  Fin.ofNat 16 ((key.1.getD (n >>> 1) 0).toNat >>> ((1 - n % 2) <<< 2))

/-! ## The tree -/

/-- `struct leaf_node` -/
structure LeafNode (algo : HashAlgo) where
  /-- `key_oid` -/
  key : Oid algo
  /-- `val_oid` -/
  val : Oid algo
deriving DecidableEq

/-- A pointer of a node: `PTR_TYPE_NULL`, `PTR_TYPE_NOTE` or `PTR_TYPE_INTERNAL`. -/
inductive Slot (algo : HashAlgo) where
  | null
  | note (l : LeafNode algo)
  | internal (a : Fin 16 → Slot algo)

/-- `struct int_node` -/
abbrev IntNode (algo : HashAlgo) := Fin 16 → Slot algo

/-- A fresh `struct int_node`. -/
def emptyNode : IntNode algo := fun _ => .null

/-- The rest of a search that looks at a slot of a node of level `n`. -/
def searchFrom (key : Oid algo) : Slot algo → Nat → Nat × Slot algo
  | .internal a, n => searchFrom key (a (getNibble (n + 1) key)) (n + 1)
  | .note l, n => (n, .note l)
  | .null, n => (n, .null)

/-- `note_tree_search`: the level of the node that was found, and what its slot holds. -/
def noteTreeSearch (tree : IntNode algo) (n : Nat) (key : Oid algo) : Nat × Slot algo :=
  searchFrom key (tree (getNibble n key)) n

/-- The rest of a store behind a slot of a node of level `n`. -/
def storeFrom (key : Oid algo) (p : Slot algo) : Slot algo → Nat → Slot algo
  | .internal a, n =>
    .internal (Function.update a (getNibble (n + 1) key)
      (storeFrom key p (a (getNibble (n + 1) key)) (n + 1)))
  | .note _, _ => p
  | .null, _ => p

/-- An assignment to the slot that a search finds. -/
def noteTreeStore (tree : IntNode algo) (n : Nat) (key : Oid algo) (p : Slot algo) : IntNode algo :=
  Function.update tree (getNibble n key) (storeFrom key p (tree (getNibble n key)) n)

/-- `note_tree_find` -/
def noteTreeFind (tree : IntNode algo) (n : Nat) (key : Oid algo) : Option (LeafNode algo) :=
  match (noteTreeSearch tree n key).2 with
  | .note l => if key = l.key then some l else none
  | _ => none

/-! ## Removal -/

/-- The loop of `note_tree_consolidate` over the slots, where `p` is the entry found so far; no
result means that there is more than one. -/
def onlyEntry (tree : IntNode algo) : List (Fin 16) → Slot algo → Option (Slot algo)
  | [], p => some p
  | i :: rest, p =>
    match tree i with
    | .null => onlyEntry tree rest p
    | entry =>
      match p with
      | .null => onlyEntry tree rest entry
      | _ => none

/-- `note_tree_consolidate`: what the parent's slot becomes, or nothing if the node stays. -/
def noteTreeConsolidate (tree : IntNode algo) : Option (Slot algo) :=
  match onlyEntry tree (List.finRange 16) .null with
  | none => none
  | some (.internal _) => none
  | some p => some p

/-- Clear the slot that a search finds and unwind the stack of its ancestors: the new slot, and
whether the nodes below it were all consolidated. -/
def unwindFrom (key : Oid algo) : Slot algo → Nat → Slot algo × Bool
  | .internal a, n =>
    let out := unwindFrom key (a (getNibble (n + 1) key)) (n + 1)
    let tree := Function.update a (getNibble (n + 1) key) out.1
    if out.2 then
      match noteTreeConsolidate tree with
      | some p => (p, true)
      | none => (.internal tree, false)
    else (.internal tree, false)
  | .note _, _ => (.null, true)
  | .null, _ => (.null, true)

/-- `note_tree_remove` on the root: the tree and the value that was removed. There is no result when
the stack of ancestors, which has `GIT_MAX_RAWSZ` places, is written beyond its end. -/
def noteTreeRemove (root : IntNode algo) (key : Oid algo) :
    Option (IntNode algo × Option (Oid algo)) :=
  match noteTreeSearch root 0 key with
  | (n, .note l) =>
    if l.key = key then
      if gitMaxRawsz ≤ n then none
      else some (Function.update root (getNibble 0 key)
        (unwindFrom key (root (getNibble 0 key)) 0).1, some l.val)
    else some (root, none)
  | _ => some (root, none)

/-! ## Insertion -/

/-- What `odb_read_object` gives. -/
structure OdbObject where
  isBlob : Bool
  data : List UInt8

/-- The object database, as the combination of notes uses it. -/
structure Odb (algo : HashAlgo) (σ : Type) where
  /-- `odb_read_object` -/
  readObject : σ → Oid algo → Option OdbObject
  /-- `odb_write_object` of a blob: its result and the id -/
  writeObject : σ → List UInt8 → Int × Oid algo × σ
  /-- A failure does not leave the null id. -/
  write_fails : ∀ s buf, (writeObject s buf).1 ≠ 0 → (writeObject s buf).2.1 ≠ nullOid algo

/-- The function that `combine_notes` points to. -/
inductive CombineNotes
  | concatenate
  | overwrite
  | ignore
deriving DecidableEq, Repr

/-- `combine_notes_concatenate`: its result and the id that `cur_oid` then holds. -/
def combineNotesConcatenate (odb : Odb algo σ) (cur new : Oid algo) (s : σ) : Int × Oid algo × σ :=
  let usable (oid : Oid algo) : Option (List UInt8) :=
    if oid = nullOid algo then none
    else match odb.readObject s oid with
      | some msg => if msg.isBlob = true ∧ msg.data ≠ [] then some msg.data else none
      | none => none
  match usable new with
  | none => (0, cur, s)
  | some newMsg =>
    match usable cur with
    | none => (0, new, s)
    | some curMsg =>
      let curMsg := if curMsg.getLast? = some 10 then curMsg.dropLast else curMsg
      odb.writeObject s (curMsg ++ [10, 10] ++ newMsg)

/-- The call of `combine_notes`. -/
def combineNotes (odb : Odb algo σ) : CombineNotes → Oid algo → Oid algo → σ → Int × Oid algo × σ
  | .concatenate, cur, new, s => combineNotesConcatenate odb cur new s
  | .overwrite, _, new, s => (0, new, s)
  | .ignore, cur, _, s => (0, cur, s)

/-- `note_tree_insert` of a note: its result and the tree. The fuel bounds the depth of the recursion
into new nodes; a note of the same key is only ever met in the outer call, where `tree` is the root
and a note may have to be removed. -/
def noteTreeInsert (odb : Odb algo σ) (combine : CombineNotes) :
    Nat → IntNode algo → Nat → LeafNode algo → σ → Option (Int × IntNode algo × σ)
  | 0, _, _, _, _ => none
  | fuel + 1, tree, n, entry, s =>
    match noteTreeSearch tree n entry.key with
    | (_, .null) =>
      if entry.val = nullOid algo then some (0, tree, s)
      else some (0, noteTreeStore tree n entry.key (.note entry), s)
    | (m, .note l) =>
      if l.key = entry.key then
        if l.val = entry.val then some (0, tree, s)
        else
          let out := combineNotes odb combine l.val entry.val s
          let tree := noteTreeStore tree n entry.key (.note ⟨l.key, out.2.1⟩)
          if out.1 = 0 ∧ out.2.1 = nullOid algo then
            (noteTreeRemove tree entry.key).map fun removed => (0, removed.1, out.2.2)
          else some (out.1, tree, out.2.2)
      else if entry.val = nullOid algo then some (0, tree, s)
      else
        match noteTreeInsert odb combine fuel emptyNode (m + 1) l s with
        | none => none
        | some (ret, newNode, s) =>
          if ret ≠ 0 then some (ret, tree, s)
          else
            match noteTreeInsert odb combine fuel newNode (m + 1) entry s with
            | none => none
            | some (ret, newNode, s) =>
              some (ret, noteTreeStore tree n entry.key (.internal newNode), s)
    | (_, .internal _) => none

/-- The number of nodes that may be entered one below the other. -/
def insertFuel (algo : HashAlgo) : Nat := 2 * algo.rawsz + 1

/-! ## Traversal -/

/-- Whether a slot holds a node. -/
def Slot.isInternal : Slot algo → Bool
  | .internal _ => true
  | _ => false

/-- `determine_fanout` -/
def determineFanout (tree : IntNode algo) (n fanout : Nat) : Nat :=
  if n % 2 ≠ 0 ∨ n > 2 * fanout then fanout
  else if (List.finRange 16).all fun i => (tree i).isInternal then fanout + 1
  else fanout

/-- A hexadecimal digit. -/
def hexDigit (d : Fin 16) : UInt8 :=
  if d.val < 10 then UInt8.ofNat (48 + d.val) else UInt8.ofNat (87 + d.val)

/-- `hash_to_hex` -/
def hashToHex (key : Oid algo) : List UInt8 :=
  (List.range (2 * algo.rawsz)).map fun n => hexDigit (getNibble n key)

/-- The loop of `construct_path_with_fanout`. -/
def fanoutPath : List UInt8 → Nat → List UInt8
  | a :: b :: rest, fanout + 1 => a :: b :: 47 :: fanoutPath rest fanout
  | hex, _ => hex

/-- `construct_path_with_fanout`; no result means the failed assertion. -/
def constructPathWithFanout (key : Oid algo) (fanout : Nat) : Option (List UInt8) :=
  if fanout < algo.rawsz then some (fanoutPath (hashToHex key) fanout) else none

/-- `each_note_fn`, with a state. -/
abbrev EachNoteFn (algo : HashAlgo) (σ : Type) := LeafNode algo → List UInt8 → σ → Int × σ

/-- The loop over the slots of a node, which ends when the callback gives a non-zero value. -/
def eachSlot (visit : Fin 16 → σ → Option (Int × σ)) : List (Fin 16) → σ → Option (Int × σ)
  | [], s => some (0, s)
  | i :: rest, s =>
    match visit i s with
    | none => none
    | some (ret, s) => if ret ≠ 0 then some (ret, s) else eachSlot visit rest s

/-- What `for_each_note_helper` does with a slot of a node of level `n`. -/
def forEachFrom (fn : EachNoteFn algo σ) : Slot algo → Nat → Nat → σ → Option (Int × σ)
  | .internal a, n, fanout, s =>
    let fanout := determineFanout a (n + 1) fanout
    eachSlot (fun i => forEachFrom fn (a i) (n + 1) fanout) (List.finRange 16) s
  | .note l, _, fanout, s => (constructPathWithFanout l.key fanout).map fun path => fn l path s
  | .null, _, _, s => some (0, s)

/-- `for_each_note` -/
def forEachNote (root : IntNode algo) (fn : EachNoteFn algo σ) (s : σ) : Option (Int × σ) :=
  let fanout := determineFanout root 0 0
  eachSlot (fun i => forEachFrom fn (root i) 0 fanout) (List.finRange 16) s

end GitCore.Notes
