import GitCore.Lib.BinaryHeap
import GitCore.Reftable.Record
import Mathlib.Algebra.BigOperators.Fin

/-! # The merged iterator

`merged.c` iterates over a stack of tables at once. Every table has a sub-iterator with a record
buffer, and the priority queue of `pq.c` orders the sub-iterators whose buffer is loaded. A queue
entry is an index together with a pointer to the buffer of that index, so that here it is the
index alone, and the buffers are looked up when entries are compared. Sub-iterators are indexed by
the positions of the stack.

Allocation failures are not modelled. All records of one iterator have the same type, so the
comparison of two records does not fail either. -/

namespace GitCore.Reftable

variable {α : Type} {vt : RecordVtable α}

/-- `struct merged_subiter`. A buffer holds nothing until a record is read into it. -/
structure MergedSubiter (α : Type) where
  /-- The records the iterator has still to return; `none` when it is not positioned. -/
  iter : Option (List α)
  /-- The record buffer. -/
  record : Option α

/-- `struct merged_iter` over a stack of tables. -/
structure MergedIter (ts : List (SortedTable vt)) where
  /-- One sub-iterator for each table. -/
  subiters : Fin ts.length → MergedSubiter α
  /-- The heap of loaded sub-iterators. -/
  pq : Array (Fin ts.length)
  /-- Whether tombstones are left out. -/
  suppressDeletions : Bool
  /-- The sub-iterator that returned the last record and was not advanced yet, `-1` if none. -/
  advanceIndex : Option (Fin ts.length)

variable {ts : List (SortedTable vt)}

/-- `merged_table_init_iter` -/
def mergedTableInitIter (ts : List (SortedTable vt)) (suppressDeletions : Bool) :
    MergedIter ts where
  subiters := fun _ => { iter := none, record := none }
  pq := #[]
  suppressDeletions := suppressDeletions
  advanceIndex := none

/-! ## Table iterators -/

/-- The records of a table whose key is not below the one of `want`. -/
def SortedTable.recordsFrom (t : SortedTable vt) (want : α) : List α :=
  Overlay.dropBelow vt.key (vt.key want) t.records

/-- `iterator_seek` -/
def iteratorSeek (t : SortedTable vt) (want : α) : IterCode × Option (List α) :=
  if t.signalsEnd ∧ (t.recordsFrom want).isEmpty then (.done, none)
  else (.ok, some (t.recordsFrom want))

/-- `iterator_next` into the buffer `rec`. The result is the return value, the buffer and the
iterator. -/
def iteratorNext (iter : Option (List α)) (rec : Option α) :
    Except ReftableError (IterCode × Option α × Option (List α)) :=
  match iter with
  | none => .error .api
  | some [] => .ok (.done, rec, some [])
  | some (r :: rest) => .ok (.ok, some r, some rest)

/-! ## The priority queue -/

/-- `reftable_record_cmp` on two buffers. Only loaded buffers are in the queue, so the place of
an empty one does not matter. -/
def recordCmp (vt : RecordVtable α) : Option α → Option α → Ordering
  | some a, some b => vt.cmp a b
  | none, none => .eq
  | none, some _ => .lt
  | some _, none => .gt

variable {n : Nat}

/-- `pq_less`: by record, and for equal records the higher index first. -/
def pqLess (vt : RecordVtable α) (rec : Fin n → Option α) (a b : Fin n) : Bool :=
  match recordCmp vt (rec a) (rec b) with
  | .eq => b < a
  | .lt => true
  | .gt => false

/-- `pq_less` on two slots of the heap; false when one of them is behind its end. -/
def pqLessAt (vt : RecordVtable α) (rec : Fin n → Option α) (heap : Array (Fin n)) (i j : Nat) :
    Bool :=
  match heap[i]?, heap[j]? with
  | some a, some b => pqLess vt rec a b
  | _, _ => false

/-- The child that `merged_iter_pqueue_remove` swaps slot `i` with. -/
def pqMinChild (vt : RecordVtable α) (rec : Fin n → Option α) (heap : Array (Fin n)) (i : Nat) :
    Option Nat :=
  let j := 2 * i + 1
  let k := 2 * i + 2
  let min := if pqLessAt vt rec heap j i then j else i
  let min := if pqLessAt vt rec heap k min then k else min
  if min = i then none else some min

/-- `merged_iter_pqueue_remove`; the entry removed is the root of the heap. -/
def mergedIterPqueueRemove (vt : RecordVtable α) (rec : Fin n → Option α)
    (heap : Array (Fin n)) : Array (Fin n) :=
  BinaryHeap.siftDown (pqMinChild vt rec) heap.size (BinaryHeap.dropRoot heap) 0

/-- `merged_iter_pqueue_add` -/
def mergedIterPqueueAdd (vt : RecordVtable α) (rec : Fin n → Option α) (heap : Array (Fin n))
    (e : Fin n) : Array (Fin n) :=
  BinaryHeap.siftUp (pqLess vt rec) (heap.size + 1) (heap.push e) heap.size

/-! ## The iterator -/

namespace MergedIter

/-- The record buffers. -/
def recs (mi : MergedIter ts) (i : Fin ts.length) : Option α := (mi.subiters i).record

/-- `mi` with another sub-iterator at `idx`. -/
def setSubiter (mi : MergedIter ts) (idx : Fin ts.length) (s : MergedSubiter α) :
    MergedIter ts :=
  { mi with subiters := Function.update mi.subiters idx s }

/-- `mi` after `merged_iter_pqueue_remove`. -/
def popPq (mi : MergedIter ts) : MergedIter ts :=
  { mi with pq := mergedIterPqueueRemove vt mi.recs mi.pq }

/-- `mi` after the buffer of `entry` was swapped with the caller's record `rec`. -/
def handOut (mi : MergedIter ts) (entry : Fin ts.length) (rec : Option α) : MergedIter ts :=
  { mi.setSubiter entry { iter := (mi.subiters entry).iter, record := rec } with
    advanceIndex := some entry }

/-- The number of records still to come, shadowed ones included. -/
def remaining (mi : MergedIter ts) : Nat :=
  mi.pq.size + ∑ i, ((mi.subiters i).iter.getD []).length

variable (mi : MergedIter ts)

@[simp] theorem setSubiter_self (idx : Fin ts.length) (s : MergedSubiter α) :
    (mi.setSubiter idx s).subiters idx = s := Function.update_self _ _ _

theorem setSubiter_of_ne {idx j : Fin ts.length} (s : MergedSubiter α)
    (h : j ≠ idx) : (mi.setSubiter idx s).subiters j = mi.subiters j :=
  Function.update_of_ne h _ _

@[simp] theorem recs_setSubiter_self (idx : Fin ts.length)
    (s : MergedSubiter α) : (mi.setSubiter idx s).recs idx = s.record := by
  rw [recs, setSubiter_self]

theorem recs_setSubiter_of_ne {idx j : Fin ts.length} (s : MergedSubiter α)
    (h : j ≠ idx) : (mi.setSubiter idx s).recs j = mi.recs j := by
  rw [recs, setSubiter_of_ne mi s h, recs]

end MergedIter

/-- `merged_iter_advance_subiter`: load the next record of a sub-iterator and queue it. -/
def mergedIterAdvanceSubiter (mi : MergedIter ts) (idx : Fin ts.length) :
    Except ReftableError (IterCode × MergedIter ts) := do
  let (code, rec, iter) ← iteratorNext (mi.subiters idx).iter (mi.subiters idx).record
  let mi := mi.setSubiter idx { iter := iter, record := rec }
  match code with
  | .done => .ok (.done, mi)
  | .ok => .ok (.ok, { mi with pq := mergedIterPqueueAdd vt mi.recs mi.pq idx })

/-- The loop of `merged_iter_seek` that empties the queue. -/
def drainPq (vt : RecordVtable α) (rec : Fin n → Option α) : Nat → Array (Fin n) → Array (Fin n)
  | 0, heap => heap
  | fuel + 1, heap =>
    if heap.isEmpty then heap else drainPq vt rec fuel (mergedIterPqueueRemove vt rec heap)

/-- One round of the loop of `merged_iter_seek` over the sub-iterators. -/
def seekSubiter (want : α) (mi : MergedIter ts) (i : Fin ts.length) :
    Except ReftableError (MergedIter ts) :=
  let (code, iter) := iteratorSeek (ts.get i) want
  let mi := mi.setSubiter i { iter := iter, record := (mi.subiters i).record }
  match code with
  | .done => .ok mi
  | .ok => do
      let (_, mi) ← mergedIterAdvanceSubiter mi i
      .ok mi

/-- `merged_iter_seek` -/
def mergedIterSeek (mi : MergedIter ts) (want : α) : Except ReftableError (MergedIter ts) :=
  (List.finRange ts.length).foldlM (seekSubiter want)
    { mi with advanceIndex := none, pq := drainPq vt mi.recs mi.pq.size mi.pq }

/-- The loop of `merged_iter_next_entry` that drops the records shadowed by the one in the buffer
of `entry`. Every round takes a record off the queue, which bounds the number of rounds. -/
def dropShadowed (entry : Fin ts.length) :
    Nat → MergedIter ts → Except ReftableError (MergedIter ts)
  | 0, _ => .error .api
  | fuel + 1, mi =>
    match mi.pq[0]? with
    | none => .ok mi
    | some top =>
      if recordCmp vt (mi.recs top) (mi.recs entry) = .gt then .ok mi
      else do
        let (_, mi) ← mergedIterAdvanceSubiter mi.popPq top
        dropShadowed entry fuel mi

/-- `merged_iter_next_entry` from the test of `empty` on: take the smallest entry, drop what it
shadows, and swap its record with the caller's. -/
def takeEntry (mi : MergedIter ts) (rec : Option α) :
    Except ReftableError (IterCode × Option α × MergedIter ts) :=
  match mi.pq[0]? with
  | none => .ok (.done, rec, mi)
  | some entry => do
      let mi ← dropShadowed entry (mi.remaining + 1) mi.popPq
      .ok (.ok, mi.recs entry, mi.handOut entry rec)

/-- The queued advance of `merged_iter_next_entry`. -/
def advanceAndTake (mi : MergedIter ts) (idx : Fin ts.length) (rec : Option α) :
    Except ReftableError (IterCode × Option α × MergedIter ts) := do
  let (_, mi) ← mergedIterAdvanceSubiter mi idx
  takeEntry { mi with advanceIndex := none } rec

/-- `merged_iter_next_entry`. With an empty queue the only live sub-iterator is read directly. -/
def mergedIterNextEntry (mi : MergedIter ts) (rec : Option α) :
    Except ReftableError (IterCode × Option α × MergedIter ts) :=
  match mi.advanceIndex with
  | some idx =>
    if mi.pq.isEmpty then do
      let (code, rec, iter) ← iteratorNext (mi.subiters idx).iter rec
      .ok (code, rec, mi.setSubiter idx { iter := iter, record := (mi.subiters idx).record })
    else advanceAndTake mi idx rec
  | none => takeEntry mi rec

/-- `merged_iter_next_entry` without its shortcut for an empty queue. -/
def mergedIterNextEntryQueued (mi : MergedIter ts) (rec : Option α) :
    Except ReftableError (IterCode × Option α × MergedIter ts) :=
  match mi.advanceIndex with
  | some idx => advanceAndTake mi idx rec
  | none => takeEntry mi rec

/-- The loop of `merged_iter_next_void` over a way to get the next entry. -/
def skipDeletions
    (next : MergedIter ts → Option α → Except ReftableError (IterCode × Option α × MergedIter ts)) :
    Nat → MergedIter ts → Option α → Except ReftableError (IterCode × Option α × MergedIter ts)
  | 0, _, _ => .error .api
  | fuel + 1, mi, rec => do
      let (code, rec, mi) ← next mi rec
      match code with
      | .done => .ok (.done, rec, mi)
      | .ok =>
        if mi.suppressDeletions ∧ rec.any vt.isDeletion then skipDeletions next fuel mi rec
        else .ok (.ok, rec, mi)

/-- `merged_iter_next_void`. Every round consumes a record. -/
def mergedIterNextVoid (mi : MergedIter ts) (rec : Option α) :
    Except ReftableError (IterCode × Option α × MergedIter ts) :=
  skipDeletions mergedIterNextEntry (mi.remaining + 1) mi rec

/-- `merged_iter_next_void` without the shortcut for an empty queue. -/
def mergedIterNextVoidQueued (mi : MergedIter ts) (rec : Option α) :
    Except ReftableError (IterCode × Option α × MergedIter ts) :=
  skipDeletions mergedIterNextEntryQueued (mi.remaining + 1) mi rec

end GitCore.Reftable
