import GitCore.Reftable.Compact

/-! # Update-index ranges along a run of the stack

The tables of a stack have ranges of update indexes, and compaction relies on their order: it takes
the smallest index from the first table of a range and the largest from the last one. An addition
checks the smallest index of a new table against `next_update_index`, which is computed once when
the addition starts. Here a run is a sequence of additions, each with any number of tables, and of
compactions. -/

namespace GitCore.Reftable

open List Overlay

variable {hashSize : Nat}

/-! ## The code -/

/-- What a `write_table` callback does with its writer: it sets the limits and offers refs and then
logs. Each call comes with the answers of the block layer at that time. -/
structure TableSession (hashSize : Nat) where
  minUpdateIndex : UInt64
  maxUpdateIndex : UInt64
  min_le_max : minUpdateIndex ≤ maxUpdateIndex
  refs : List (BlockLayer hashSize × RefRecord hashSize)
  logs : List (BlockLayer hashSize × LogRecord hashSize)
  closing : BlockLayer hashSize

/-- What is left of a call whose error the caller ignores. -/
def orUnchanged {W : Type} (w : W) : Except ReftableError W → W
  | .ok w' => w'
  | .error _ => w

/-- The writer at the end of the callback. -/
def TableSession.writer (exactLogMessage : Bool) (s : TableSession hashSize) :
    TableWriter hashSize :=
  s.logs.foldl (fun w c => orUnchanged w (w.addLog c.1 c.2))
    (s.refs.foldl (fun w c => orUnchanged w (w.addRef c.1 c.2))
      (TableWriter.new s.minUpdateIndex s.maxUpdateIndex exactLogMessage))

/-- `struct reftable_addition` -/
structure Addition (hashSize : Nat) where
  nextUpdateIndex : UInt64
  newTables : List (StoredTable hashSize)

/-- `reftable_stack_next_update_index` -/
def stackNextUpdateIndex (st : List (StackTable hashSize)) : UInt64 :=
  match st.getLast? with
  | some t => t.maxUpdateIndex + 1
  | none => 1

/-- `reftable_addition_add`. A table without records is not added, which is no error. -/
def additionAdd (exactLogMessage : Bool) (add : Addition hashSize) (s : TableSession hashSize) :
    Except ReftableError (Addition hashSize) :=
  let wr := s.writer exactLogMessage
  match wr.close s.closing with
  | none => .ok add
  | some t =>
    if wr.minUpdateIndex < add.nextUpdateIndex then .error .api
    else .ok { add with newTables := add.newTables ++ [t] }

/-- `reftable_stack_new_addition` and the calls of `reftable_addition_add` up to the commit. -/
def additionRun (exactLogMessage : Bool) (st : List (StackTable hashSize))
    (sessions : List (TableSession hashSize)) : Addition hashSize :=
  sessions.foldl (fun add s => orUnchanged add (additionAdd exactLogMessage add s))
    ⟨stackNextUpdateIndex st, []⟩

/-- The first loop of `stack_write_compact`, which copies the refs. -/
def stackWriteCompactRefs (layer : BlockLayer hashSize) (st : List (StackTable hashSize))
    (wr : TableWriter hashSize) (first last : Nat) :
    Except ReftableError (TableWriter hashSize) := do
  let it ← mergedIterSeek
    (mergedTableInitIter ((subtables st first last).map fun t => t.toRefsTable.refTable) false)
    (refWant emptyName)
  copyRecords (fun r => first == 0 && r.isDeletion) (TableWriter.addRef layer) (it.remaining + 1) it
    none wr

/-- The second loop of `stack_write_compact`. `expired` are the logs that the configuration of the
expiry tells to drop. -/
def stackWriteCompactLogs (layer : BlockLayer hashSize) (st : List (StackTable hashSize))
    (expired : LogRecord hashSize → Bool) (wr : TableWriter hashSize) (first last : Nat) :
    Except ReftableError (TableWriter hashSize) := do
  let it ← mergedIterSeek
    (mergedTableInitIter ((subtables st first last).map StackTable.logTable) false)
    (logWant emptyName)
  copyRecords (fun r => first == 0 && r.isDeletion || expired r) (TableWriter.addLog layer)
    (it.remaining + 1) it none wr

/-- The writer of a compaction, with the limits that `stack_write_compact` sets. -/
def compactionWriter (exactLogMessage : Bool) (st : List (StackTable hashSize)) (first last : Nat) :
    Option (TableWriter hashSize) := do
  let f ← st[first]?
  let l ← st[last]?
  some (TableWriter.new f.minUpdateIndex l.maxUpdateIndex exactLogMessage)

/-- `stack_compact_locked`: the compacted table, `none` if it is empty. -/
def stackCompactExpiring (layer : BlockLayer hashSize) (exactLogMessage : Bool)
    (st : List (StackTable hashSize)) (expired : LogRecord hashSize → Bool) (first last : Nat) :
    Except ReftableError (Option (StoredTable hashSize)) :=
  match compactionWriter exactLogMessage st first last with
  | none => .error .api
  | some wr => do
      let wr ← stackWriteCompactRefs layer st wr first last
      let wr ← stackWriteCompactLogs layer st expired wr first last
      .ok (wr.close layer)

/-! ## Runs -/

/-- What happens to a stack. -/
inductive StackEvent (hashSize : Nat) where
  /-- An addition with these calls and its commit. -/
  | addition (sessions : List (TableSession hashSize))
  /-- A compaction that succeeds. -/
  | compaction (layer : BlockLayer hashSize) (expired : LogRecord hashSize → Bool)
      (first last : Nat)

/-- The stack before and after an event. The tables that are written have sorted sections. -/
inductive EventStep (exactLogMessage : Bool) :
    List (StackTable hashSize) → StackEvent hashSize → List (StackTable hashSize) → Prop where
  | addition {st sessions} (new : List (StackTable hashSize))
      (hnew : new.map (fun t => t.toStoredTable) =
        (additionRun exactLogMessage st sessions).newTables) :
    EventStep exactLogMessage st (.addition sessions) (st ++ new)
  | compaction {st layer expired first last} (compacted : Option (StackTable hashSize))
      (hle : first ≤ last)
      (h : stackCompactExpiring layer exactLogMessage st expired first last =
        .ok (compacted.map fun t => t.toStoredTable)) :
    EventStep exactLogMessage st (.compaction layer expired first last)
      (st.take first ++ compacted.toList ++ st.drop (last + 1))

/-- A run from the empty stack: each event with the stack before it, and the stack at the end. -/
inductive StackRun (exactLogMessage : Bool) :
    List (List (StackTable hashSize) × StackEvent hashSize) → List (StackTable hashSize) →
      Prop where
  | nil : StackRun exactLogMessage [] []
  | snoc {trace st event st'} (run : StackRun exactLogMessage trace st)
      (step : EventStep exactLogMessage st event st') :
    StackRun exactLogMessage (trace ++ [(st, event)]) st'

/-! ## Tables keep to their limits -/

/-- Refs that are stored relative to `min` have names and lie within the limits. -/
structure WithinLimits (min max : UInt64) (refs : List (RefRecord hashSize)) : Prop where
  refs_within : ∀ r ∈ refs.map (RefRecord.rebased min), min ≤ r.updateIndex ∧ r.updateIndex ≤ max
  named : ∀ r ∈ refs, r.refname.val ≠ []

/-- The refs of a writer keep to its limits. -/
def TableWriter.Within (w : TableWriter hashSize) : Prop :=
  WithinLimits w.minUpdateIndex w.maxUpdateIndex w.refs

/-- What stays the same in a writer: its limits, and that the refs keep to them. -/
def TableWriter.SameLimits (w w' : TableWriter hashSize) : Prop :=
  w'.minUpdateIndex = w.minUpdateIndex ∧ w'.maxUpdateIndex = w.maxUpdateIndex ∧
    (w.Within → w'.Within)

theorem TableWriter.SameLimits.refl (w : TableWriter hashSize) : w.SameLimits w := ⟨rfl, rfl, id⟩

theorem TableWriter.SameLimits.trans {w w' w'' : TableWriter hashSize} (h : w.SameLimits w')
    (h' : w'.SameLimits w'') : w.SameLimits w'' :=
  ⟨h'.1.trans h.1, h'.2.1.trans h.2.1, h'.2.2 ∘ h.2.2⟩

variable {layer : BlockLayer hashSize} {r : RefRecord hashSize}

theorem TableWriter.sameLimits_addRef {w w' : TableWriter hashSize} (h : w.addRef layer r = .ok w') :
    w.SameLimits w' := by
  obtain ⟨rfl, hmin, hmax, hname⟩ := TableWriter.addRef_eq_ok h
  refine ⟨rfl, rfl, fun hw => ⟨fun x hx => ?_, fun x hx => ?_⟩⟩
  · rw [map_append, mem_append] at hx
    rcases hx with hx | hx
    · exact hw.refs_within x hx
    rw [map_singleton, RefRecord.rebased_relative, mem_singleton] at hx
    subst hx
    exact ⟨hmin, hmax⟩
  · rcases mem_append.mp hx with hx | hx
    · exact hw.named x hx
    · exact mem_singleton.mp hx ▸ hname

theorem TableWriter.sameLimits_addLog {w w' : TableWriter hashSize} {log : LogRecord hashSize}
    (h : w.addLog layer log = .ok w') : w.SameLimits w' := by
  obtain ⟨logs, rfl⟩ := TableWriter.addLog_eq_ok h
  exact ⟨rfl, rfl, id⟩

/-- Calls whose errors are ignored keep what a successful call keeps. -/
theorem foldl_orUnchanged {W α : Type} {call : W → α → Except ReftableError W} (R : W → W → Prop)
    (hrefl : ∀ w, R w w) (htrans : ∀ {w w' w''}, R w w' → R w' w'' → R w w'')
    (hcall : ∀ {w a w'}, call w a = .ok w' → R w w') (l : List α) (w : W) :
    R w (l.foldl (fun w a => orUnchanged w (call w a)) w) := by
  induction l generalizing w with
  | nil => exact hrefl w
  | cons a l ih =>
    refine htrans ?_ (ih _)
    dsimp only
    cases h : call w a with
    | error e => exact hrefl w
    | ok w' => exact hcall h

theorem TableSession.sameLimits_writer (exactLogMessage : Bool) (s : TableSession hashSize) :
    (TableWriter.new s.minUpdateIndex s.maxUpdateIndex exactLogMessage).SameLimits
      (s.writer exactLogMessage) :=
  (foldl_orUnchanged _ TableWriter.SameLimits.refl TableWriter.SameLimits.trans
    TableWriter.sameLimits_addRef s.refs _).trans
    (foldl_orUnchanged _ TableWriter.SameLimits.refl TableWriter.SameLimits.trans
      TableWriter.sameLimits_addLog s.logs _)

variable {w : TableWriter hashSize} {t : StoredTable hashSize}

theorem TableWriter.close_eq_some (h : w.close layer = some t) :
    t.minUpdateIndex = w.minUpdateIndex ∧ t.maxUpdateIndex = w.maxUpdateIndex ∧
      t.refs = w.refs := by
  unfold TableWriter.close at h
  grind

/-- A table whose limits are in order and whose refs keep to them. -/
structure StoredTable.Sound (t : StoredTable hashSize) : Prop where
  min_le_max : t.minUpdateIndex ≤ t.maxUpdateIndex
  within : WithinLimits t.minUpdateIndex t.maxUpdateIndex t.refs

variable {exactLogMessage : Bool}

/-- The table that a writer leaves. -/
theorem TableWriter.SameLimits.sound {min max : UInt64}
    (h : (TableWriter.new min max exactLogMessage).SameLimits w) (hle : min ≤ max)
    (hclose : w.close layer = some t) :
    t.minUpdateIndex = min ∧ t.maxUpdateIndex = max ∧ t.Sound := by
  obtain ⟨hmin, hmax, hrefs⟩ := TableWriter.close_eq_some hclose
  have hmin' : w.minUpdateIndex = min := h.1
  have hmax' : w.maxUpdateIndex = max := h.2.1
  have hwithin := h.2.2 ⟨forall_mem_nil _, forall_mem_nil _⟩
  refine ⟨hmin.trans hmin', hmax.trans hmax', ?_, ?_⟩
  · rwa [hmin, hmax, hmin', hmax']
  · rwa [hmin, hmax, hrefs]

/-! ## Additions -/

/-- The table that a call writes, if it is not empty and starts at `next` or later. -/
def TableSession.written (exactLogMessage : Bool) (next : UInt64) (s : TableSession hashSize) :
    Option (StoredTable hashSize) :=
  if s.minUpdateIndex < next then none else (s.writer exactLogMessage).close s.closing

/-- A table that is written has the limits of its call. -/
theorem TableSession.written_eq_some {s : TableSession hashSize} {next : UInt64}
    (h : s.written exactLogMessage next = some t) : next ≤ t.minUpdateIndex ∧
      t.minUpdateIndex = s.minUpdateIndex ∧ t.maxUpdateIndex = s.maxUpdateIndex ∧ t.Sound := by
  unfold TableSession.written at h
  split_ifs at h with hnext
  obtain ⟨hmin, hmax, hsound⟩ := (s.sameLimits_writer exactLogMessage).sound s.min_le_max h
  exact ⟨hmin ▸ not_lt.mp hnext, hmin, hmax, hsound⟩

/-- **The new tables of an addition** are those that its calls write: `next_update_index` is never
set again. -/
theorem additionRun_newTables (exactLogMessage : Bool) (st : List (StackTable hashSize))
    (sessions : List (TableSession hashSize)) :
    (additionRun exactLogMessage st sessions).newTables =
      sessions.filterMap (TableSession.written exactLogMessage (stackNextUpdateIndex st)) := by
  have hcalls : ∀ add : Addition hashSize,
      (sessions.foldl (fun add s => orUnchanged add (additionAdd exactLogMessage add s))
        add).newTables = add.newTables ++
          sessions.filterMap (TableSession.written exactLogMessage add.nextUpdateIndex) := by
    induction sessions with
    | nil => exact fun add => (append_nil _).symm
    | cons s sessions ih =>
      intro add
      have hmin : (s.writer exactLogMessage).minUpdateIndex = s.minUpdateIndex :=
        (s.sameLimits_writer exactLogMessage).1
      rw [foldl_cons, ih, filterMap_cons, additionAdd, TableSession.written, hmin]
      cases hclose : (s.writer exactLogMessage).close s.closing with
      | none => simp [orUnchanged]
      | some t => by_cases hnext : s.minUpdateIndex < add.nextUpdateIndex <;> simp [hnext, orUnchanged]
  exact hcalls _

/-- The calls of an addition that write a table. -/
def writingCalls (exactLogMessage : Bool) (st : List (StackTable hashSize))
    (sessions : List (TableSession hashSize)) : List (TableSession hashSize) :=
  sessions.filter fun s => (s.written exactLogMessage (stackNextUpdateIndex st)).isSome

/-- The limits of the new tables are those of the calls. -/
theorem map_limits_newTables (exactLogMessage : Bool) (st : List (StackTable hashSize))
    (sessions : List (TableSession hashSize)) :
    (additionRun exactLogMessage st sessions).newTables.map
        (fun t => (t.minUpdateIndex, t.maxUpdateIndex)) =
      (writingCalls exactLogMessage st sessions).map
        fun s => (s.minUpdateIndex, s.maxUpdateIndex) := by
  rw [additionRun_newTables, writingCalls]
  induction sessions with
  | nil => rfl
  | cons s sessions ih =>
    cases hwritten : s.written exactLogMessage (stackNextUpdateIndex st) with
    | none => simp [hwritten, ih]
    | some t =>
      obtain ⟨-, hmin, hmax, -⟩ := TableSession.written_eq_some hwritten
      simp [hwritten, ih, hmin, hmax]

/-! ## Ordered stacks -/

/-- The tables of a stack as they are stored. -/
def storedTables (st : List (StackTable hashSize)) : List (StoredTable hashSize) :=
  st.map fun t => t.toStoredTable

/-- The range of each table ends before that of the next one starts. -/
def RangesOrdered (ts : List (StoredTable hashSize)) : Prop :=
  ts.IsChain fun a b => a.maxUpdateIndex < b.minUpdateIndex

theorem RangesOrdered.pairwise {ts : List (StoredTable hashSize)} (h : RangesOrdered ts)
    (hle : ∀ t ∈ ts, t.minUpdateIndex ≤ t.maxUpdateIndex) :
    ts.Pairwise fun a b => a.maxUpdateIndex < b.minUpdateIndex := by
  -- since the ranges between two tables are not empty, their order is transitive
  have : IsTrans (StoredTable hashSize) fun a b =>
      a.maxUpdateIndex < b.minUpdateIndex ∧ b.minUpdateIndex ≤ b.maxUpdateIndex :=
    ⟨fun a b c hab hbc => ⟨(hab.1.trans_le hab.2).trans hbc.1, hbc.2⟩⟩
  have hchain := IsChain.imp_of_mem_imp (fun a b _ hb hab => And.intro hab (hle b hb)) h
  exact (isChain_iff_pairwise.mp hchain).imp And.left

/-- A stack whose tables are sound and whose ranges are in order. -/
structure StackOrdered (st : List (StackTable hashSize)) : Prop where
  ordered : RangesOrdered (storedTables st)
  sound : ∀ t ∈ st, t.toStoredTable.Sound

variable {st : List (StackTable hashSize)}

theorem StackOrdered.pairwise (h : StackOrdered st) :
    st.Pairwise fun a b => a.maxUpdateIndex < b.minUpdateIndex := by
  refine pairwise_map.mp (h.ordered.pairwise fun t ht => ?_)
  obtain ⟨t, hmem, rfl⟩ := mem_map.mp ht
  exact (h.sound t hmem).min_le_max

theorem StackOrdered.max_lt_min (h : StackOrdered st) {i j : Nat} {a b : StackTable hashSize}
    (hij : i < j) (ha : st[i]? = some a) (hb : st[j]? = some b) :
    a.maxUpdateIndex < b.minUpdateIndex := by
  obtain ⟨hi, rfl⟩ := List.getElem?_eq_some_iff.mp ha
  obtain ⟨hj, rfl⟩ := List.getElem?_eq_some_iff.mp hb
  exact pairwise_iff_getElem.mp h.pairwise i j hi hj hij

/-- The limits that a compaction sets hold those of every table of the range. -/
theorem StackOrdered.limits (h : StackOrdered st) {first last i : Nat}
    {f l t : StackTable hashSize} (hf : st[first]? = some f) (hl : st[last]? = some l)
    (ht : st[i]? = some t) (hfirst : first ≤ i) (hlast : i ≤ last) :
    f.minUpdateIndex ≤ t.minUpdateIndex ∧ t.maxUpdateIndex ≤ l.maxUpdateIndex := by
  have hle {i : Nat} {t : StackTable hashSize} (ht : st[i]? = some t) :
      t.minUpdateIndex ≤ t.maxUpdateIndex := (h.sound t (mem_of_getElem? ht)).min_le_max
  constructor
  · rcases hfirst.lt_or_eq with hlt | rfl
    · exact (hle hf).trans (h.max_lt_min hlt hf ht).le
    · rw [Option.some.inj (hf.symm.trans ht)]
  · rcases hlast.lt_or_eq with hlt | rfl
    · exact (h.max_lt_min hlt ht hl).le.trans (hle hl)
    · rw [Option.some.inj (hl.symm.trans ht)]

/-! ## Compactions -/

variable {first last : Nat} {τ : Type} {expired : LogRecord hashSize → Bool}
  {wr : TableWriter hashSize} {event : StackEvent hashSize}

/-- The tables of a range by their positions. -/
theorem mem_subtables {st : List τ} {t : τ} :
    t ∈ subtables st first last ↔ ∃ i, first ≤ i ∧ i ≤ last ∧ st[i]? = some t := by
  rw [mem_iff_getElem?]
  constructor
  · rintro ⟨k, hk⟩
    rw [show subtables st first last = slice st first last from rfl, getElem?_slice] at hk
    grind
  · rintro ⟨i, hfirst, hlast, hi⟩
    refine ⟨i - first, ?_⟩
    rw [show subtables st first last = slice st first last from rfl, getElem?_slice,
      Nat.add_sub_cancel' hfirst, if_pos hlast, hi]

/-- Every ref of the range lies within the limits that a compaction sets. -/
theorem StackOrdered.refs_within (h : StackOrdered st) {f l t : StackTable hashSize}
    (hf : st[first]? = some f) (hl : st[last]? = some l) (ht : t ∈ subtables st first last)
    (hr : r ∈ t.refTable.records) :
    f.minUpdateIndex ≤ r.updateIndex ∧ r.updateIndex ≤ l.maxUpdateIndex := by
  obtain ⟨i, hfirst, hlast, hi⟩ := mem_subtables.mp ht
  obtain ⟨hmin, hmax⟩ := h.limits hf hl hi hfirst hlast
  have hwithin := (h.sound t (mem_of_getElem? hi)).within.refs_within r hr
  exact ⟨hmin.trans hwithin.1, hwithin.2.trans hmax⟩

/-- A compacted ref is one of a table of the range. -/
theorem exists_of_mem_compactedRefs (h : r ∈ compactedRefs st first last) :
    ∃ t ∈ subtables st first last, r ∈ t.refTable.records := by
  obtain ⟨hnewest, -⟩ := mem_compactedRefs.mp h
  obtain ⟨-, i, l, hi, hr, -⟩ := (newest_eq_some _ (runs_records _)).mp hnewest
  have hl := mem_of_getElem? hi
  simp only [stackMerged, map_map, mem_map, Function.comp_apply] at hl
  obtain ⟨t, ht, rfl⟩ := hl
  exact ⟨t, ht, hr⟩

/-- The first loop of a compaction adds the compacted refs one after the other. -/
theorem stackWriteCompactRefs_eq (layer : BlockLayer hashSize) (st : List (StackTable hashSize))
    (wr : TableWriter hashSize) (first last : Nat) :
    stackWriteCompactRefs layer st wr first last =
      (compactedRefs st first last).foldlM (TableWriter.addRef layer) wr := by
  obtain ⟨it, hseek, -⟩ := mergedIterSeek_spec (mergedTableInitIter
    ((subtables st first last).map fun t => t.toRefsTable.refTable) false) (refWant emptyName)
  rw [stackWriteCompactRefs, hseek]
  change copyRecords _ _ (it.remaining + 1) it none wr = _
  rw [copyRecords_seek false (refWant emptyName) wr hseek, compactedRefs, stackMerged, map_map]
  rfl

theorem nil_lt_of_ne_nil {bytes : Bytes} (h : bytes ≠ []) : [] < bytes := by
  obtain ⟨b, bytes, rfl⟩ := exists_cons_of_ne_nil h
  exact nil_lt_cons b bytes

/-- A ref that has a name, lies within the limits and comes behind the last one can only be too
big. -/
theorem TableWriter.addRef_eq_error {e : ReftableError} (hmin : w.minUpdateIndex ≤ r.updateIndex)
    (hmax : r.updateIndex ≤ w.maxUpdateIndex) (hname : r.refname.val ≠ [])
    (hlast : lastKey (refRecordVtable hashSize).key w.refs < r.refname.val)
    (h : w.addRef layer r = .error e) : e = .entryTooBig := by
  unfold TableWriter.addRef at h
  rw [if_neg (not_or.mpr ⟨not_lt.mpr hmin, not_lt.mpr hmax⟩)] at h
  have hkey : (if layer.refOpensBlock w.refs then []
      else lastKey (refRecordVtable hashSize).key w.refs) <
      (refRecordVtable hashSize).key (r.relative w.minUpdateIndex) := by
    split
    · exact nil_lt_of_ne_nil hname
    · exact hlast
  grind

/-- Adding ascending refs within the limits does not end in `REFTABLE_API_ERROR`. -/
theorem foldlM_addRef_ne_api {rs : List (RefRecord hashSize)}
    (hwithin : ∀ r ∈ rs, w.minUpdateIndex ≤ r.updateIndex ∧ r.updateIndex ≤ w.maxUpdateIndex)
    (hname : ∀ r ∈ rs, r.refname.val ≠ [])
    (hrun : ((w.refs ++ rs).map (refRecordVtable hashSize).key).Pairwise (· < ·)) :
    rs.foldlM (TableWriter.addRef layer) w ≠ .error .api := by
  induction rs generalizing w with
  | nil => exact fun h => nomatch h
  | cons r rs ih =>
    have hr := hwithin r mem_cons_self
    have hrname := hname r mem_cons_self
    rw [map_append, map_cons] at hrun
    have hlast : lastKey (refRecordVtable hashSize).key w.refs < r.refname.val := by
      rcases eq_nil_or_concat' w.refs with hnil | ⟨init, x, hconcat⟩
      · rw [hnil]
        exact nil_lt_of_ne_nil hrname
      rw [hconcat, lastKey, getLast?_concat]
      refine (pairwise_append.mp hrun).2.2 _ ?_ _ mem_cons_self
      grind
    rw [foldlM_cons]
    cases hadd : w.addRef layer r with
    | error e =>
      rw [TableWriter.addRef_eq_error hr.1 hr.2 hrname hlast hadd]
      exact fun h => nomatch h
    | ok w' =>
      obtain ⟨rfl, -⟩ := TableWriter.addRef_eq_ok hadd
      refine ih (forall_mem_cons.mp hwithin).2
        (forall_mem_cons.mp hname).2 ?_
      rw [append_assoc, singleton_append, map_append, map_cons]
      exact hrun

/-- The writer of a compaction has the limits of the range. -/
theorem compactionWriter_eq_some (h : compactionWriter exactLogMessage st first last = some wr) :
    ∃ f l, st[first]? = some f ∧ st[last]? = some l ∧
      wr = TableWriter.new f.minUpdateIndex l.maxUpdateIndex exactLogMessage := by
  obtain ⟨f, hf, h⟩ := Option.bind_eq_some_iff.mp h
  grind

/-- **Compacting an ordered stack** does not fail with `REFTABLE_API_ERROR` on a ref. -/
theorem StackOrdered.compactRefs_ne_api (h : StackOrdered st)
    (hwr : compactionWriter exactLogMessage st first last = some wr) :
    stackWriteCompactRefs layer st wr first last ≠ .error .api := by
  obtain ⟨f, l, hf, hl, rfl⟩ := compactionWriter_eq_some hwr
  rw [stackWriteCompactRefs_eq]
  refine foldlM_addRef_ne_api (fun r hr => ?_) (fun r hr => ?_) ?_
  · obtain ⟨t, ht, hmem⟩ := exists_of_mem_compactedRefs hr
    exact h.refs_within hf hl ht hmem
  · obtain ⟨t, ht, hmem⟩ := exists_of_mem_compactedRefs hr
    obtain ⟨i, -, -, hi⟩ := mem_subtables.mp ht
    obtain ⟨r', hr', rfl⟩ := mem_map.mp hmem
    exact (h.sound t (mem_of_getElem? hi)).within.named r' hr'
  · rw [pairwise_map]
    exact (run_mergedView _ _ _).filter _

/-- A loop of a compaction keeps the limits if adding a record does. -/
theorem sameLimits_copyRecords {α : Type} {vt : RecordVtable α} {ts : List (SortedTable vt)}
    {skip : α → Bool} {add : TableWriter hashSize → α → Except ReftableError (TableWriter hashSize)}
    (hadd : ∀ {w r w'}, add w r = .ok w' → w.SameLimits w') {want : α} {wr' : TableWriter hashSize}
    (h : (mergedIterSeek (mergedTableInitIter ts false) want >>= fun it =>
      copyRecords skip add (it.remaining + 1) it none wr) = .ok wr') : wr.SameLimits wr' := by
  obtain ⟨it, -, h⟩ := exists_of_bind_eq_ok h
  exact copyRecords_preserves (P := wr.SameLimits) (fun w r w' hw hr => hw.trans (hadd hr))
    _ _ _ _ _ (TableWriter.SameLimits.refl wr) h

/-- What the loops of a compaction leave of the limits. -/
theorem stackCompactExpiring_eq_ok {compacted : Option (StoredTable hashSize)}
    (h : stackCompactExpiring layer exactLogMessage st expired first last = .ok compacted) :
    ∃ f l wr, st[first]? = some f ∧ st[last]? = some l ∧
      (TableWriter.new f.minUpdateIndex l.maxUpdateIndex exactLogMessage).SameLimits wr ∧
      compacted = wr.close layer := by
  unfold stackCompactExpiring at h
  cases hwr : compactionWriter exactLogMessage st first last with
  | none => rw [hwr] at h; cases h
  | some wr₀ =>
    obtain ⟨f, l, hf, hl, rfl⟩ := compactionWriter_eq_some hwr
    rw [hwr] at h
    obtain ⟨wr₁, hrefs, h⟩ := exists_of_bind_eq_ok h
    obtain ⟨wr₂, hlogs, h⟩ := exists_of_bind_eq_ok h
    refine ⟨f, l, wr₂, hf, hl, ?_, (Except.ok.inj h).symm⟩
    exact (sameLimits_copyRecords TableWriter.sameLimits_addRef hrefs).trans
      (sameLimits_copyRecords TableWriter.sameLimits_addLog hlogs)

/-! ## Steps and runs -/

/-- A condition on an event. The calls of one addition that write a table have ascending limits; and
there are none on top of a table whose range ends with the largest number of 64 bits. -/
def Ascending (exactLogMessage : Bool) (st : List (StackTable hashSize)) :
    StackEvent hashSize → Prop
  | .addition sessions =>
    ((writingCalls exactLogMessage st sessions).IsChain fun a b =>
        a.maxUpdateIndex < b.minUpdateIndex) ∧
      (writingCalls exactLogMessage st sessions ≠ [] →
        ∀ t ∈ st.getLast?, t.maxUpdateIndex ≠ 0xffffffffffffffff)
  | .compaction _ _ _ _ => True

/-- The condition on an addition, said of the tables that it adds. -/
theorem ascending_addition_iff {sessions : List (TableSession hashSize)} :
    Ascending exactLogMessage st (.addition sessions) ↔
      RangesOrdered (additionRun exactLogMessage st sessions).newTables ∧
        ((additionRun exactLogMessage st sessions).newTables ≠ [] →
          ∀ t ∈ st.getLast?, t.maxUpdateIndex ≠ 0xffffffffffffffff) := by
  have hlimits := map_limits_newTables exactLogMessage st sessions
  rw [Ascending, RangesOrdered]
  refine and_congr ?_ (imp_congr_left (not_congr ?_))
  · have hchain := congrArg (List.IsChain fun a b : UInt64 × UInt64 => a.2 < b.1) hlimits
    rw [isChain_map, isChain_map] at hchain
    exact .of_eq hchain.symm
  · have hlength := congrArg List.length hlimits
    grind

/-- A stack is ordered if each table ends before those above it start. -/
theorem stackOrdered_of_pairwise
    (hpair : st.Pairwise fun a b => a.maxUpdateIndex < b.minUpdateIndex)
    (hsound : ∀ t ∈ st, t.toStoredTable.Sound) : StackOrdered st where
  ordered := (pairwise_map.mpr hpair).isChain
  sound := hsound

/-- An addition that meets the condition keeps the stack ordered. -/
theorem StackOrdered.addition {new : List (StackTable hashSize)}
    {sessions : List (TableSession hashSize)} (h : StackOrdered st)
    (hnew : storedTables new = (additionRun exactLogMessage st sessions).newTables)
    (hasc : Ascending exactLogMessage st (.addition sessions)) : StackOrdered (st ++ new) := by
  have hspec : ∀ t ∈ storedTables new, stackNextUpdateIndex st ≤ t.minUpdateIndex ∧ t.Sound := by
    intro t ht
    rw [hnew, additionRun_newTables] at ht
    obtain ⟨s, -, hs⟩ := mem_filterMap.mp ht
    obtain ⟨hnext, -, -, hsound⟩ := TableSession.written_eq_some hs
    exact ⟨hnext, hsound⟩
  rw [ascending_addition_iff, ← hnew] at hasc
  refine ⟨?_, fun t ht => ?_⟩
  · rw [storedTables, map_append]
    refine isChain_append.mpr ⟨h.ordered, hasc.1, fun x hx y hy => ?_⟩
    rw [getLast?_map, Option.mem_def, Option.map_eq_some_iff] at hx
    obtain ⟨t, ht, rfl⟩ := hx
    have hy := mem_of_mem_head? hy
    -- the new table starts at `next_update_index` or later
    have hnext : stackNextUpdateIndex st = t.maxUpdateIndex + 1 := by
      rw [stackNextUpdateIndex, ht]
    have hlt := UInt64.lt_add_one (hasc.2 (ne_nil_of_mem hy) t ht)
    exact hlt.trans_le (hnext ▸ (hspec y hy).1)
  · rcases mem_append.mp ht with ht | ht
    · exact h.sound t ht
    · exact (hspec _ (mem_map_of_mem ht)).2

/-- A compaction keeps the stack ordered. -/
theorem StackOrdered.compaction
    {compacted : Option (StackTable hashSize)} (h : StackOrdered st) (hle : first ≤ last)
    (hc : stackCompactExpiring layer exactLogMessage st expired first last =
      .ok (compacted.map fun t => t.toStoredTable)) :
    StackOrdered (st.take first ++ compacted.toList ++ st.drop (last + 1)) := by
  obtain ⟨f, l, wr, hf, hl, hsame, hclose⟩ := stackCompactExpiring_eq_ok hc
  have hfl : f.minUpdateIndex ≤ l.maxUpdateIndex :=
    (h.sound f (mem_of_getElem? hf)).min_le_max.trans (h.limits hf hl hf le_rfl hle).2
  -- the compacted table has the limits of the range
  have hcompacted : ∀ t ∈ compacted.toList, t.minUpdateIndex = f.minUpdateIndex ∧
      t.maxUpdateIndex = l.maxUpdateIndex ∧ t.toStoredTable.Sound := by
    intro t ht
    rw [Option.mem_toList] at ht
    rw [ht] at hclose
    exact hsame.sound hfl hclose.symm
  have hbelow {a : StackTable hashSize} (ha : a ∈ st.take first) :
      a.maxUpdateIndex < f.minUpdateIndex := by
    obtain ⟨i, hi, rfl⟩ := mem_take_iff_getElem.mp ha
    exact h.max_lt_min (by omega) (getElem?_eq_getElem _) hf
  have habove {b : StackTable hashSize} (hb : b ∈ st.drop (last + 1)) :
      l.maxUpdateIndex < b.minUpdateIndex := by
    obtain ⟨i, hi, rfl⟩ := mem_drop_iff_getElem.mp hb
    exact h.max_lt_min (by omega) hl (getElem?_eq_getElem _)
  have hmem {t : StackTable hashSize}
      (ht : t ∈ st.take first ++ compacted.toList ++ st.drop (last + 1)) :
      t ∈ compacted.toList ∨ t ∈ st := by grind
  refine stackOrdered_of_pairwise ?_ fun t ht =>
    (hmem ht).elim (fun ht => (hcompacted t ht).2.2) (h.sound t)
  refine pairwise_append.mpr ⟨pairwise_append.mpr ⟨h.pairwise.sublist
    (take_sublist _ _), ?_, fun a ha t ht => ?_⟩, h.pairwise.sublist (drop_sublist _ _),
    fun a ha b hb => ?_⟩
  · simp
  · rw [(hcompacted t ht).1]
    exact hbelow ha
  grind

/-- An event that meets the condition keeps the stack ordered. -/
theorem StackOrdered.step {st' : List (StackTable hashSize)}
    (h : StackOrdered st) (hstep : EventStep exactLogMessage st event st')
    (hasc : Ascending exactLogMessage st event) : StackOrdered st' := by
  cases hstep with
  | addition new hnew => exact h.addition hnew hasc
  | compaction compacted hle hc => exact h.compaction hle hc

/-- An event that leaves the ranges in order meets the condition. -/
theorem ascending_of_ordered {st' : List (StackTable hashSize)}
    (hstep : EventStep exactLogMessage st event st') (h : RangesOrdered (storedTables st')) :
    Ascending exactLogMessage st event := by
  cases hstep with
  | @addition sessions new hnew =>
    rw [storedTables, map_append, hnew] at h
    obtain ⟨-, hordered, hborder⟩ := isChain_append.mp h
    refine ascending_addition_iff.mpr ⟨hordered, fun hne t ht hmax => ?_⟩
    obtain ⟨x, rest, hcons⟩ := exists_cons_of_ne_nil hne
    have hlt := hborder t.toStoredTable (by rw [getLast?_map, ht]; rfl) x (by rw [hcons]; rfl)
    grind
  | compaction => trivial

/-- What compaction relies on: the ranges of the stack are in order, every ref of a range of tables
lies within the limits that its compaction sets, and a compaction of the range does not fail with
`REFTABLE_API_ERROR` on a ref. -/
structure StackConsistent (exactLogMessage : Bool) (st : List (StackTable hashSize)) : Prop where
  ordered : RangesOrdered (storedTables st)
  refs_within : ∀ first last wr, compactionWriter exactLogMessage st first last = some wr →
    ∀ t ∈ subtables st first last, ∀ r ∈ t.refTable.records,
      wr.minUpdateIndex ≤ r.updateIndex ∧ r.updateIndex ≤ wr.maxUpdateIndex
  compacts : ∀ layer first last wr, compactionWriter exactLogMessage st first last = some wr →
    stackWriteCompactRefs layer st wr first last ≠ .error .api

theorem StackOrdered.consistent (h : StackOrdered st) (exactLogMessage : Bool) :
    StackConsistent exactLogMessage st where
  ordered := h.ordered
  refs_within := by
    intro first last wr hwr t ht r hr
    obtain ⟨f, l, hf, hl, rfl⟩ := compactionWriter_eq_some hwr
    exact h.refs_within hf hl ht hr
  compacts := fun _ _ _ _ hwr => h.compactRefs_ne_api hwr

section

variable {trace : List (List (StackTable hashSize) × StackEvent hashSize)}
  (run : StackRun exactLogMessage trace st)

include run

/-- The stack stays ordered along a run whose events meet the condition. -/
theorem StackRun.stackOrdered (hasc : ∀ x ∈ trace, Ascending exactLogMessage x.1 x.2) :
    StackOrdered st ∧ ∀ x ∈ trace, StackOrdered x.1 := by
  induction run with
  | nil => exact ⟨stackOrdered_of_pairwise .nil (forall_mem_nil _), forall_mem_nil _⟩
  | snoc run step ih =>
    obtain ⟨hold, hnew⟩ := forall_mem_append.mp hasc
    obtain ⟨hst, htrace⟩ := ih hold
    have hst' := hst.step step (hnew _ mem_cons_self)
    exact ⟨hst', forall_mem_append.mpr ⟨htrace, forall_mem_singleton.mpr hst⟩⟩

/-- Along a run whose stacks are all in order every event meets the condition. -/
theorem StackRun.ascending (hst : RangesOrdered (storedTables st))
    (htrace : ∀ x ∈ trace, RangesOrdered (storedTables x.1)) :
    ∀ x ∈ trace, Ascending exactLogMessage x.1 x.2 := by
  induction run with
  | nil => exact nofun
  | snoc run step ih =>
    obtain ⟨hold, hnew⟩ := forall_mem_append.mp htrace
    have hlast := ascending_of_ordered step hst
    exact forall_mem_append.mpr ⟨ih (hnew _ mem_cons_self) hold, forall_mem_singleton.mpr hlast⟩

end

/-- **Update-index ranges of a stack.** Along a run of additions and compactions from the empty
stack, in which all tables that are written have sorted sections, the stacks are all consistent
exactly if every addition meets the condition: its calls that write a table have ascending limits,
and it writes none on top of a range that ends with the largest number. -/
theorem stack_consistent_iff {exactLogMessage : Bool}
    {trace : List (List (StackTable hashSize) × StackEvent hashSize)}
    {st : List (StackTable hashSize)} (run : StackRun exactLogMessage trace st) :
    (StackConsistent exactLogMessage st ∧ ∀ x ∈ trace, StackConsistent exactLogMessage x.1) ↔
      ∀ x ∈ trace, Ascending exactLogMessage x.1 x.2 := by
  constructor
  · rintro ⟨hst, htrace⟩
    exact run.ascending hst.ordered fun x hx => (htrace x hx).ordered
  · intro hasc
    obtain ⟨hst, htrace⟩ := run.stackOrdered hasc
    exact ⟨hst.consistent _, fun x hx => (htrace x hx).consistent _⟩

/-! ## Two tables in one addition -/

/-- A block layer with room for everything. -/
def roomyLayer : BlockLayer 20 :=
  ⟨fun _ _ => true, fun _ _ => true, fun _ => false, fun _ => false, fun _ => false, fun _ => false⟩

theorem zero_not_mem_nameA : (0 : UInt8) ∉ ([0x61] : Bytes) := by decide

theorem zero_not_mem_nameB : (0 : UInt8) ∉ ([0x62] : Bytes) := by decide

/-- The name `a`. -/
def nameA : CStr := ⟨[0x61], zero_not_mem_nameA⟩

/-- The name `b`. -/
def nameB : CStr := ⟨[0x62], zero_not_mem_nameB⟩

/-- A ref at an update index. -/
def refAt (name : CStr) (updateIndex : UInt64) : RefRecord 20 :=
  ⟨name, updateIndex, .val1 ⟨List.replicate 20 7, rfl⟩⟩

/-- A table with a ref at the end of its range. -/
def rangeSession (name : CStr) (min max : UInt64) (h : min ≤ max) : TableSession 20 :=
  ⟨min, max, h, [(roomyLayer, refAt name max)], [], roomyLayer⟩

/-- The table that is written. -/
def rangeTable (name : CStr) (min max : UInt64) : StackTable 20 where
  minUpdateIndex := min
  maxUpdateIndex := max
  refs := [(refAt name max).relative min]
  refIndex := false
  logs := []
  logIndex := false
  refs_sorted := pairwise_singleton _ _
  logs_sorted := List.Pairwise.nil

theorem one_le_five : (1 : UInt64) ≤ 5 := by decide

/-- An addition of a table with the range from 1 to 5 and one with the range of 6 alone. -/
theorem stack_consistent_two_tables :
    StackConsistent false [rangeTable nameA 1 5, rangeTable nameB 6 6] :=
  have hnew : storedTables [rangeTable nameA 1 5, rangeTable nameB 6 6] = (additionRun false []
      [rangeSession nameA 1 5 one_le_five, rangeSession nameB 6 6 le_rfl]).newTables := rfl
  have hasc : Ascending false ([] : List (StackTable 20))
      (.addition [rangeSession nameA 1 5 one_le_five, rangeSession nameB 6 6 le_rfl]) :=
    ⟨isChain_pair.mpr (by decide), fun _ t ht => nomatch ht⟩
  ((stack_consistent_iff (StackRun.snoc .nil (.addition _ hnew))).mpr fun x hx => by grind).1

/-- **Two tables of one addition may overlap.** After a table with the range from 1 to 5, one with
the range of 1 alone is accepted as well; the compaction of the two sets the limits 1 and 1 and
fails with `REFTABLE_API_ERROR` on the ref of the first table. -/
theorem addition_overlapping_tables :
    let st := [rangeTable nameA 1 5, rangeTable nameB 1 1]
    EventStep false []
        (.addition [rangeSession nameA 1 5 one_le_five, rangeSession nameB 1 1 le_rfl]) st ∧
      ¬RangesOrdered (storedTables st) ∧
      ∃ wr, compactionWriter false st 0 1 = some wr ∧
        stackWriteCompactRefs roomyLayer st wr 0 1 = .error .api := by
  refine ⟨.addition _ rfl, fun h => absurd (isChain_pair.mp h) (by decide), _, rfl, ?_⟩
  generalize hresult : stackWriteCompactRefs _ _ _ _ _ = result
  have herror : result.map (fun _ => ()) = .error .api := by
    rw [← hresult]
    decide +kernel
  cases result with
  | ok wr => cases herror
  | error e => exact congrArg Except.error (Except.error.inj herror)

end GitCore.Reftable
