import GitCore.Reftable.Record

/-! # Tables at the level of records

A table keeps the update indexes of its refs relative to the smallest one it may contain: the
writer subtracts `min_update_index`, a reader adds it. This module has the writer and the reader at
the level of records, with the sections as lists. How the records are laid out in blocks is not
decided here; `BlockLayer` stands for the answers of the block layer that show at this level. -/

namespace GitCore.Reftable

variable {hashSize : Nat}

/-- The answers of the block layer, given the records of the section so far. -/
structure BlockLayer (hashSize : Nat) where
  /-- Whether a ref record fits into a block. -/
  refFits : List (RefRecord hashSize) → RefRecord hashSize → Bool
  /-- Whether a log record fits into a block. -/
  logFits : List (LogRecord hashSize) → LogRecord hashSize → Bool
  /-- Whether the last ref record has opened a new block, which resets `last_key`. -/
  refOpensBlock : List (RefRecord hashSize) → Bool
  /-- Whether the last log record has opened a new block, which resets `last_key`. -/
  logOpensBlock : List (LogRecord hashSize) → Bool
  /-- Whether the refs get an index. -/
  refIndex : List (RefRecord hashSize) → Bool
  /-- Whether the logs get an index. -/
  logIndex : List (LogRecord hashSize) → Bool

/-- A table as it is stored. -/
structure StoredTable (hashSize : Nat) where
  /-- `min_update_index` -/
  minUpdateIndex : UInt64
  /-- `max_update_index` -/
  maxUpdateIndex : UInt64
  /-- The refs, their update indexes relative to `minUpdateIndex`. -/
  refs : List (RefRecord hashSize)
  /-- Whether the refs are indexed. -/
  refIndex : Bool
  /-- The log records. -/
  logs : List (LogRecord hashSize)
  /-- Whether the logs are indexed. -/
  logIndex : Bool

/-- A table with sorted refs. -/
structure RefsTable (hashSize : Nat) extends StoredTable hashSize where
  /-- The refs are sorted. -/
  refs_sorted : Overlay.Run (refRecordVtable hashSize).key refs

/-- A table of a stack: its logs are sorted, too. -/
structure StackTable (hashSize : Nat) extends RefsTable hashSize where
  /-- The logs are sorted. -/
  logs_sorted : Overlay.Run (logRecordVtable hashSize).key logs

/-- `rec->u.ref.update_index += ti->table->min_update_index` -/
def RefRecord.rebased (min : UInt64) (r : RefRecord hashSize) : RefRecord hashSize :=
  { r with updateIndex := r.updateIndex + min }

/-- `rec.u.ref.update_index -= w->min_update_index` -/
def RefRecord.relative (min : UInt64) (r : RefRecord hashSize) : RefRecord hashSize :=
  { r with updateIndex := r.updateIndex - min }

/-- Reading restores what writing has rebased. -/
@[simp] theorem RefRecord.rebased_relative (min : UInt64) (r : RefRecord hashSize) :
    (r.relative min).rebased min = r := by
  simp [RefRecord.relative, RefRecord.rebased]

/-- The refs of a table as its iterators return them. -/
def RefsTable.refTable (t : RefsTable hashSize) : SortedTable (refRecordVtable hashSize) where
  records := t.refs.map (RefRecord.rebased t.minUpdateIndex)
  signalsEnd := t.refIndex
  sorted := Overlay.run_map.mpr t.refs_sorted

/-- The logs of a table as its iterators return them. -/
def StackTable.logTable (t : StackTable hashSize) : SortedTable (logRecordVtable hashSize) where
  records := t.logs
  signalsEnd := t.logIndex
  sorted := t.logs_sorted

/-! ## The writer -/

/-- `struct reftable_writer` at the level of records. -/
structure TableWriter (hashSize : Nat) where
  /-- `min_update_index` -/
  minUpdateIndex : UInt64
  /-- `max_update_index` -/
  maxUpdateIndex : UInt64
  /-- Option `exact_log_message` -/
  exactLogMessage : Bool
  /-- The refs written. -/
  refs : List (RefRecord hashSize)
  /-- The logs written. -/
  logs : List (LogRecord hashSize)

/-- A new writer after `reftable_writer_set_limits`. -/
def TableWriter.new (min max : UInt64) (exactLogMessage : Bool) : TableWriter hashSize where
  minUpdateIndex := min
  maxUpdateIndex := max
  exactLogMessage := exactLogMessage
  refs := []
  logs := []

/-- The key of the last record of a section, empty at its start. -/
def lastKey {α : Type} (key : α → Bytes) (l : List α) : Bytes := (l.getLast?.map key).getD []

/-- `reftable_writer_add_ref`. A name is compared with the last one unless that one has opened a
block. -/
def TableWriter.addRef (layer : BlockLayer hashSize) (w : TableWriter hashSize)
    (ref : RefRecord hashSize) : Except ReftableError (TableWriter hashSize) :=
  if ref.updateIndex < w.minUpdateIndex ∨ w.maxUpdateIndex < ref.updateIndex then .error .api
  else
    let rec' := ref.relative w.minUpdateIndex
    let last :=
      if layer.refOpensBlock w.refs then [] else lastKey (refRecordVtable hashSize).key w.refs
    if last < (refRecordVtable hashSize).key rec' then
      if layer.refFits w.refs rec' then .ok { w with refs := w.refs ++ [rec'] }
      else .error .entryTooBig
    else .error .api

/-- `reftable_writer_add_log_verbatim`. A record is compared with the last one unless that one
has opened a block. -/
def TableWriter.addLogVerbatim (layer : BlockLayer hashSize) (w : TableWriter hashSize)
    (log : LogRecord hashSize) : Except ReftableError (TableWriter hashSize) :=
  let last := if layer.logOpensBlock w.logs then [] else lastKey LogRecord.key w.logs
  if last < log.key then
    if layer.logFits w.logs log then .ok { w with logs := w.logs ++ [log] } else .error .entryTooBig
  else .error .api

/-- A message without the newlines at its end. -/
def stripNewlines (message : Bytes) : Bytes :=
  (message.reverse.dropWhile (· = 10)).reverse

/-- A message that ends in one newline; `none` if it has another one inside. -/
def cleanMessage (message : CStr) : Option CStr :=
  if 10 ∈ stripNewlines message.val then none
  else some ⟨stripNewlines message.val ++ [10], by
    intro h
    rcases List.mem_append.mp h with h | h
    · exact message.property (List.mem_reverse.mp
        ((List.dropWhile_sublist _).subset (List.mem_reverse.mp h)))
    · exact absurd (List.mem_singleton.mp h) (by decide)⟩

/-- `reftable_writer_add_log` -/
def TableWriter.addLog (layer : BlockLayer hashSize) (w : TableWriter hashSize)
    (log : LogRecord hashSize) : Except ReftableError (TableWriter hashSize) :=
  match log.value with
  | none => TableWriter.addLogVerbatim layer w log
  | some update =>
    if w.maxUpdateIndex < log.updateIndex then .error .api
    else match w.exactLogMessage, update.message with
      | false, some message =>
        match cleanMessage message with
        | none => .error .api
        | some message =>
          TableWriter.addLogVerbatim layer w
            { log with value := some { update with message := some message } }
      | _, _ => TableWriter.addLogVerbatim layer w log

/-- `reftable_writer_close`; `none` for a table without records, which is reported as
`REFTABLE_EMPTY_TABLE_ERROR`. -/
def TableWriter.close (layer : BlockLayer hashSize) (w : TableWriter hashSize) :
    Option (StoredTable hashSize) :=
  if w.refs.isEmpty ∧ w.logs.isEmpty then none
  else some
    { minUpdateIndex := w.minUpdateIndex, maxUpdateIndex := w.maxUpdateIndex
      refs := w.refs, refIndex := layer.refIndex w.refs
      logs := w.logs, logIndex := layer.logIndex w.logs }

end GitCore.Reftable
