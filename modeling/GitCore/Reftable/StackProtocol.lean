import GitCore.Lib.Slice
import Mathlib.Data.Finset.Basic

/-! # The protocol on the reftable directory

Any number of processes share one directory: the file `tables.list`, its lock, one lock for each
table, and the table files. Each process runs `reftable_stack_add`, `stack_compact_range` and
`reftable_stack_reload` of `stack.c`, and may be interrupted after every access to the directory.
A process that stops for good is one that takes no further step.

The library picks table names with a random suffix and relies on their being unique; here a new
name is one that was never used before. -/

namespace GitCore.Reftable

variable (Pid Name : Type)

/-- The directory, and the history of the commits made to it. -/
structure Directory where
  /-- The contents of `tables.list`. -/
  list : List Name
  /-- Who holds `tables.list.lock`. -/
  listLock : Option Pid
  /-- Who holds the lock of a table. -/
  tableLock : Name → Option Pid
  /-- The table files that exist. -/
  files : Finset Name
  /-- The names given to table files so far. -/
  used : Finset Name
  /-- History: the names that a commit has put into `tables.list`. -/
  committed : Finset Name
  /-- History: the tables committed by additions, in the order of the commits. -/
  added : List Name
  /-- History: the added tables whose records a table holds. -/
  covers : Name → List Name
  /-- History: in how many committed compactions a table was replaced. -/
  consumed : Name → Nat

/-- What a process does once it has reloaded the stack. -/
inductive After where
  /-- Go on with the addition for which it holds the list lock. -/
  | add
  /-- Return to the caller. -/
  | done
  /-- Delete the tables it has compacted and locked; `reuse` says whether the reload may keep
  open tables. -/
  | delete (locks : List Name) (reuse : Bool)

/-- Where a process stands. -/
inductive Pc where
  | idle
  /-- `reftable_stack_init_addition` has the list lock. -/
  | addLocked (reload : Bool)
  /-- An addition under way with these new tables. -/
  | adding (new : List Name)
  /-- `reftable_addition_close` with the new tables still to unlink. -/
  | closing (new : List Name)
  /-- At the head of the loop of `reftable_stack_reload_maybe_reuse`, after `tries` failed rounds. -/
  | loading (after : After Name) (tries : Nat)
  /-- `reftable_stack_reload_once` opening the tables `rest` of `names`. -/
  | opening (after : After Name) (tries : Nat) (names rest : List Name)
  /-- A table of `names` was missing: about to read the list again. -/
  | checking (after : After Name) (tries : Nat) (names : List Name)
  /-- `reftable_stack_reload_once` unlinking the tables it no longer uses. -/
  | unlinking (after : After Name) (names todo : List Name)
  /-- `stack_compact_range` has the list lock. -/
  | compactLocked (first last : Nat) (bestEffort : Bool)
  /-- The tables from `i` to `last` are locked, those from `first` on are to be. -/
  | locking (first last i : Nat) (bestEffort : Bool)
  /-- All tables of the range are locked. -/
  | locked (first last : Nat)
  /-- The list lock is released, the compacted table is being written. -/
  | compacting (first last : Nat)
  /-- The list lock is taken again. -/
  | relocked (first last : Nat) (isEmpty : Bool)
  /-- The range was found at `fst` to `lst` in `names`. -/
  | located (first last : Nat) (isEmpty : Bool) (names : List Name) (fst lst : Nat)
  /-- The compacted table is in place. -/
  | placed (first last : Nat) (new : Option Name) (names : List Name) (fst lst : Nat)
  /-- Unlinking the compacted tables `todo`. -/
  | deleting (locks todo : List Name)
  /-- Releasing the list lock, when held, and the table locks. -/
  | releasing (listHeld : Bool) (locks : List Name)

/-- A process: the stack it has loaded and where it stands. -/
structure Proc where
  tables : List Name
  pc : Pc Name

/-- The directory and the processes. -/
structure StackState where
  dir : Directory Pid Name
  procs : Pid → Proc Name

variable {Pid Name}

/-- Whether the reload may keep tables open that it has already. -/
def After.reuse : After Name → Bool
  | .add | .done => true
  | .delete _ reuse => reuse

/-- Where a process goes after a reload that succeeded. -/
def After.succeed : After Name → Pc Name
  | .add => .adding []
  | .done => .idle
  | .delete locks _ => .deleting locks locks

/-- Where a process goes after a reload that failed. -/
def After.fail : After Name → Pc Name
  | .add => .closing []
  | .done => .idle
  | .delete locks _ => .releasing false locks

section Operations

variable [DecidableEq Name]

/-- The open tables that a reload to `names` does not keep: each name takes one of the tables it
finds, unless nothing may be kept. -/
def staleTables (reuse : Bool) (tables names : List Name) : List Name :=
  if reuse then tables.diff names else tables

/-- The table locks `stack_compact_range` holds on a range, in the order it took them. -/
def tableLocks (tables : List Name) (first last : Nat) : List Name :=
  (slice tables first last).reverse

/-- How `stack_compact_range` is called: by `reftable_stack_compact_all` on the whole stack,
perhaps to expire logs, and by `reftable_stack_auto_compact` on some segment of it. -/
def CompactCall (tables : List Name) (first last : Nat) (expiry bestEffort : Bool) : Prop :=
  (first = 0 ∧ last = tables.length - 1 ∧ bestEffort = false) ∨
    (last < tables.length ∧ expiry = false ∧ bestEffort = true)

/-- The search of `stack_compact_range` for its range in a list that has changed. -/
def locateRange (names tables : List Name) (first last : Nat) : Option (Nat × Nat) :=
  match names.findIdx? (fun name => tables[first]? == some name) with
  | none => none
  | some i =>
    if (List.range (last - first)).all fun j =>
        (tables[first + (j + 1)]?).isSome && names[i + (j + 1)]? == tables[first + (j + 1)]? then
      -- `last + (new_offset - first)` in the arithmetic of `size_t`
      some (i, last + i - first)
    else none

/-- The directory after the list lock changed hands. -/
def Directory.setListLock (d : Directory Pid Name) (holder : Option Pid) : Directory Pid Name :=
  { d with listLock := holder }

/-- The directory after a table lock changed hands. -/
def Directory.setTableLock (d : Directory Pid Name) (name : Name) (holder : Option Pid) :
    Directory Pid Name :=
  { d with tableLock := Function.update d.tableLock name holder }

/-- A table file moved into place under a new name. -/
def Directory.create (d : Directory Pid Name) (name : Name) : Directory Pid Name :=
  { d with files := insert name d.files, used := insert name d.used }

/-- A table file unlinked. -/
def Directory.unlink (d : Directory Pid Name) (name : Name) : Directory Pid Name :=
  { d with files := d.files.erase name }

/-- The commit of an addition: the lock file with the loaded tables and the new ones becomes
`tables.list`. -/
def Directory.commitAdd (d : Directory Pid Name) (tables new : List Name) :
    Directory Pid Name :=
  { d with
    list := tables ++ new
    listLock := none
    committed := d.committed ∪ new.toFinset
    added := d.added ++ new
    covers := fun name => if name ∈ new then [name] else d.covers name }

/-- The commit of a compaction: the range `fst` to `lst` of `names` is replaced by the new table,
or by nothing when the compacted table is empty. -/
def Directory.commitCompact (d : Directory Pid Name) (names : List Name) (fst lst : Nat)
    (new : Option Name) : Directory Pid Name :=
  { d with
    list := names.take fst ++ new.toList ++ names.drop (lst + 1)
    listLock := none
    committed := d.committed ∪ new.toList.toFinset
    covers := fun name =>
      if name ∈ new then (slice names fst lst).flatMap d.covers else d.covers name
    consumed := fun name =>
      if name ∈ slice names fst lst then d.consumed name + 1 else d.consumed name }

end Operations

/-! ## Steps -/

/-- One step of the process `p` between two accesses to the directory. A call that fails before it
has changed anything is no step. -/
inductive ProcStep [DecidableEq Name] (p : Pid) :
    Directory Pid Name → Proc Name → Directory Pid Name → Proc Name → Prop where
  -- `reftable_stack_init_addition`
  | addAcquire {d ts} (reload : Bool) (hfree : d.listLock = none) :
    ProcStep p d ⟨ts, .idle⟩ (d.setListLock (some p)) ⟨ts, .addLocked reload⟩
  | addUptodate {d ts reload} (heq : ts = d.list) :
    ProcStep p d ⟨ts, .addLocked reload⟩ d ⟨ts, .adding []⟩
  | addReload {d ts} (hne : ts ≠ d.list) :
    ProcStep p d ⟨ts, .addLocked true⟩ d ⟨ts, .loading .add 0⟩
  | addOutdated {d ts} (hne : ts ≠ d.list) :
    ProcStep p d ⟨ts, .addLocked false⟩ d ⟨ts, .closing []⟩
  | addInitFail {d ts reload} :
    ProcStep p d ⟨ts, .addLocked reload⟩ d ⟨ts, .closing []⟩
  -- `reftable_addition_add`; an empty table and a failure leave nothing behind
  | addWrite {d ts new} (name : Name) (hfresh : name ∉ d.used) :
    ProcStep p d ⟨ts, .adding new⟩ (d.create name) ⟨ts, .adding (new ++ [name])⟩
  -- `reftable_addition_commit`
  | addCommit {d ts new} (hne : new ≠ []) :
    ProcStep p d ⟨ts, .adding new⟩ (d.commitAdd ts new) ⟨ts, .loading .done 0⟩
  -- nothing to commit, or a failure before the commit
  | addClose {d ts new} :
    ProcStep p d ⟨ts, .adding new⟩ d ⟨ts, .closing new⟩
  -- `reftable_addition_close`
  | closeUnlink {d ts name new} :
    ProcStep p d ⟨ts, .closing (name :: new)⟩ (d.unlink name) ⟨ts, .closing new⟩
  | closeRelease {d ts} :
    ProcStep p d ⟨ts, .closing []⟩ (d.setListLock none) ⟨ts, .idle⟩
  -- `reftable_stack_reload`, at any time
  | reload {d ts} :
    ProcStep p d ⟨ts, .idle⟩ d ⟨ts, .loading .done 0⟩
  -- `reftable_stack_reload_maybe_reuse`
  | loadRead {d ts after tries} :
    ProcStep p d ⟨ts, .loading after tries⟩ d ⟨ts, .opening after tries d.list d.list⟩
  | loadFail {d ts after tries} :
    ProcStep p d ⟨ts, .loading after tries⟩ d ⟨ts, after.fail⟩
  -- past the deadline the loop ends with the result of `gettimeofday`, which is success
  | loadDeadline {d ts after tries} (htries : 3 ≤ tries) :
    ProcStep p d ⟨ts, .loading after tries⟩ d ⟨ts, after.succeed⟩
  | openNext {d ts after tries names name rest}
      (hopen : (after.reuse = true ∧ name ∈ ts) ∨ name ∈ d.files) :
    ProcStep p d ⟨ts, .opening after tries names (name :: rest)⟩ d
      ⟨ts, .opening after tries names rest⟩
  | openMissing {d ts after tries names name rest} (hclosed : ¬(after.reuse = true ∧ name ∈ ts))
      (hgone : name ∉ d.files) :
    ProcStep p d ⟨ts, .opening after tries names (name :: rest)⟩ d
      ⟨ts, .checking after tries names⟩
  | openFail {d ts after tries names rest} :
    ProcStep p d ⟨ts, .opening after tries names rest⟩ d ⟨ts, after.fail⟩
  | checkChanged {d ts after tries names} (hne : d.list ≠ names) :
    ProcStep p d ⟨ts, .checking after tries names⟩ d ⟨ts, .loading after (tries + 1)⟩
  | checkFail {d ts after tries names} :
    ProcStep p d ⟨ts, .checking after tries names⟩ d ⟨ts, after.fail⟩
  | opened {d ts after tries names} :
    ProcStep p d ⟨ts, .opening after tries names []⟩ d
      ⟨ts, .unlinking after names (staleTables after.reuse ts names)⟩
  | unlinkStale {d ts after names name todo} :
    ProcStep p d ⟨ts, .unlinking after names (name :: todo)⟩ (d.unlink name)
      ⟨ts, .unlinking after names todo⟩
  | reloaded {d ts after names} :
    ProcStep p d ⟨ts, .unlinking after names []⟩ d ⟨names, after.succeed⟩
  -- `stack_compact_range`: the first time under the list lock
  | compactAcquire {d ts} (first last : Nat) (expiry bestEffort : Bool)
      (hcall : CompactCall ts first last expiry bestEffort)
      (hguard : ¬(last < first ∨ (expiry = false ∧ first = last)))
      -- without a table there is nothing at `first`
      (hne : ts ≠ []) (hfree : d.listLock = none) :
    ProcStep p d ⟨ts, .idle⟩ (d.setListLock (some p))
      ⟨ts, .compactLocked first last bestEffort⟩
  | compactUptodate {d ts first last bestEffort} (heq : ts = d.list) :
    ProcStep p d ⟨ts, .compactLocked first last bestEffort⟩ d
      ⟨ts, .locking first last (last + 1) bestEffort⟩
  | compactOutdated {d ts first last bestEffort} :
    ProcStep p d ⟨ts, .compactLocked first last bestEffort⟩ d ⟨ts, .releasing true []⟩
  | lockTable {d ts first last i bestEffort name} (hi : first ≤ i) (hname : ts[i]? = some name)
      (hfree : d.tableLock name = none) :
    ProcStep p d ⟨ts, .locking first last (i + 1) bestEffort⟩ (d.setTableLock name (some p))
      ⟨ts, .locking first last i bestEffort⟩
  -- best effort: compact the tables behind the one that is locked
  | lockBusy {d ts first last i name} (hi : first ≤ i) (hname : ts[i]? = some name)
      (hbusy : d.tableLock name ≠ none) (htwo : 2 ≤ last - i) :
    ProcStep p d ⟨ts, .locking first last (i + 1) true⟩ d ⟨ts, .locked (i + 1) last⟩
  | lockAll {d ts first last bestEffort} :
    ProcStep p d ⟨ts, .locking first last first bestEffort⟩ d ⟨ts, .locked first last⟩
  | lockFail {d ts first last i bestEffort} :
    ProcStep p d ⟨ts, .locking first last i bestEffort⟩ d
      ⟨ts, .releasing true (tableLocks ts i last)⟩
  | compactRelease {d ts first last} :
    ProcStep p d ⟨ts, .locked first last⟩ (d.setListLock none) ⟨ts, .compacting first last⟩
  -- the compacted table is written to a temporary file
  | compactFail {d ts first last} :
    ProcStep p d ⟨ts, .compacting first last⟩ d ⟨ts, .releasing false (tableLocks ts first last)⟩
  -- the second time under the list lock
  | compactRelock {d ts first last} (isEmpty : Bool) (hfree : d.listLock = none) :
    ProcStep p d ⟨ts, .compacting first last⟩ (d.setListLock (some p))
      ⟨ts, .relocked first last isEmpty⟩
  | locateSame {d ts first last isEmpty} (heq : ts = d.list) :
    ProcStep p d ⟨ts, .relocked first last isEmpty⟩ d
      ⟨ts, .located first last isEmpty ts first last⟩
  | locateMoved {d ts first last isEmpty fst lst} (hne : ts ≠ d.list)
      (hloc : locateRange d.list ts first last = some (fst, lst)) :
    ProcStep p d ⟨ts, .relocked first last isEmpty⟩ d
      ⟨ts, .located first last isEmpty d.list fst lst⟩
  | locateFail {d ts first last isEmpty} :
    ProcStep p d ⟨ts, .relocked first last isEmpty⟩ d
      ⟨ts, .releasing true (tableLocks ts first last)⟩
  | place {d ts first last names fst lst} (name : Name) (hfresh : name ∉ d.used) :
    ProcStep p d ⟨ts, .located first last false names fst lst⟩ (d.create name)
      ⟨ts, .placed first last (some name) names fst lst⟩
  | placeEmpty {d ts first last names fst lst} :
    ProcStep p d ⟨ts, .located first last true names fst lst⟩ d
      ⟨ts, .placed first last none names fst lst⟩
  | placeFail {d ts first last isEmpty names fst lst} :
    ProcStep p d ⟨ts, .located first last isEmpty names fst lst⟩ d
      ⟨ts, .releasing true (tableLocks ts first last)⟩
  | compactCommit {d ts first last new names fst lst} :
    ProcStep p d ⟨ts, .placed first last new names fst lst⟩ (d.commitCompact names fst lst new)
      ⟨ts, .loading (.delete (tableLocks ts first last) (decide (first < last))) 0⟩
  | commitFail {d ts first last name names fst lst} :
    ProcStep p d ⟨ts, .placed first last (some name) names fst lst⟩ (d.unlink name)
      ⟨ts, .releasing true (tableLocks ts first last)⟩
  | commitAbort {d ts first last new names fst lst} :
    ProcStep p d ⟨ts, .placed first last new names fst lst⟩ d
      ⟨ts, .releasing true (tableLocks ts first last)⟩
  | deleteTable {d ts locks name todo} :
    ProcStep p d ⟨ts, .deleting locks (name :: todo)⟩ (d.unlink name) ⟨ts, .deleting locks todo⟩
  | deleted {d ts locks} :
    ProcStep p d ⟨ts, .deleting locks []⟩ d ⟨ts, .releasing false locks⟩
  | releaseList {d ts locks} :
    ProcStep p d ⟨ts, .releasing true locks⟩ (d.setListLock none) ⟨ts, .releasing false locks⟩
  | releaseTable {d ts name locks} :
    ProcStep p d ⟨ts, .releasing false (name :: locks)⟩ (d.setTableLock name none)
      ⟨ts, .releasing false locks⟩
  | released {d ts} :
    ProcStep p d ⟨ts, .releasing false []⟩ d ⟨ts, .idle⟩

/-- One step of the system: some process takes a step. -/
inductive StackStep [DecidableEq Pid] [DecidableEq Name] :
    StackState Pid Name → StackState Pid Name → Prop where
  | mk {s : StackState Pid Name} (p : Pid) {d : Directory Pid Name} {pr : Proc Name}
      (h : ProcStep p s.dir (s.procs p) d pr) :
    StackStep s ⟨d, Function.update s.procs p pr⟩

/-- An empty directory, and processes that have not loaded anything. -/
def StackState.init : StackState Pid Name where
  dir :=
    { list := [], listLock := none, tableLock := fun _ => none, files := ∅, used := ∅,
      committed := ∅, added := [], covers := fun _ => [], consumed := fun _ => 0 }
  procs := fun _ => ⟨[], .idle⟩

/-- The states of all interleavings of the processes' steps. -/
inductive StackReachable [DecidableEq Pid] [DecidableEq Name] : StackState Pid Name → Prop where
  | init : StackReachable .init
  | step {s t : StackState Pid Name} (hs : StackReachable s) (h : StackStep s t) :
    StackReachable t

end GitCore.Reftable
