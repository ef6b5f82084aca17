import GitCore.Lib.Slice
import GitCore.Lib.Stream
import GitCore.Reftable.MergedView
import GitCore.Reftable.StoredTable

/-! # Compaction

`stack_write_compact` copies the merged refs and logs of a range of tables into a new table whose
limits are those of the range. Tombstones are kept, unless the range starts at the bottom of the
stack. The main result is that the stack shows the same refs afterwards. -/

namespace GitCore.Reftable

open List Overlay

variable {hashSize : Nat}

/-! ## The operations -/

/-- The loops of `stack_write_compact`: add what the iterator returns, except for the records
to `skip`. -/
def copyRecords {α W : Type} {vt : RecordVtable α} {ts : List (SortedTable vt)} (skip : α → Bool)
    (add : W → α → Except ReftableError W) :
    Nat → MergedIter ts → Option α → W → Except ReftableError W
  | 0, _, _, _ => .error .api
  | fuel + 1, mi, rec, w => do
      let (code, rec, mi) ← mergedIterNextVoid mi rec
      match code, rec with
      | .done, _ => .ok w
      | .ok, none => .error .api
      | .ok, some r =>
        if skip r then copyRecords skip add fuel mi (some r) w
        else do
          let w ← add w r
          copyRecords skip add fuel mi (some r) w

/-- The empty name. -/
def emptyName : CStr := ⟨[], zero_not_mem_nil⟩

/-- The record that `reftable_iterator_seek_ref` seeks. -/
def refWant (name : CStr) : RefRecord hashSize :=
  { refname := name, updateIndex := 0, value := .deletion }

/-- The record that `reftable_iterator_seek_log` seeks. -/
def logWant (name : CStr) : LogRecord hashSize :=
  { refname := name, updateIndex := 0xffffffffffffffff, value := none }

/-- The tables from `first` to `last`. -/
def subtables {τ : Type} (st : List τ) (first last : Nat) : List τ := (st.take (last + 1)).drop first

/-- `stack_write_compact` without expiry. -/
def stackWriteCompact (layer : BlockLayer hashSize) (st : List (StackTable hashSize))
    (wr : TableWriter hashSize) (first last : Nat) :
    Except ReftableError (TableWriter hashSize) := do
  let mt := subtables st first last
  let it ← mergedIterSeek
    (mergedTableInitIter (mt.map fun t => t.toRefsTable.refTable) false) (refWant emptyName)
  let wr ← copyRecords (fun r => first == 0 && r.isDeletion) (TableWriter.addRef layer)
    (it.remaining + 1) it none wr
  let it ← mergedIterSeek (mergedTableInitIter (mt.map StackTable.logTable) false)
    (logWant emptyName)
  copyRecords (fun r => first == 0 && r.isDeletion) (TableWriter.addLog layer)
    (it.remaining + 1) it none wr

/-- `stack_compact_locked`: the compacted table, `none` if it is empty. -/
def stackCompactLocked (layer : BlockLayer hashSize) (exactLogMessage : Bool)
    (st : List (StackTable hashSize)) (first last : Nat) :
    Except ReftableError (Option (StoredTable hashSize)) :=
  match st[first]?, st[last]? with
  | some f, some l => do
      let wr ← stackWriteCompact layer st
        (TableWriter.new f.minUpdateIndex l.maxUpdateIndex exactLogMessage) first last
      .ok (wr.close layer)
  | _, _ => .error .api

/-- The stack with the tables from `first` to `last` replaced by the compacted one. -/
def replaceRange (st : List (RefsTable hashSize)) (first last : Nat)
    (compacted : Option (RefsTable hashSize)) : List (RefsTable hashSize) :=
  st.take first ++ compacted.toList ++ st.drop (last + 1)

/-- The merged table of a stack. -/
def stackMerged (st : List (RefsTable hashSize)) :
    List (SortedTable (refRecordVtable hashSize)) :=
  st.map RefsTable.refTable

/-- `reftable_stack_init_ref_iterator`: the merged table of a stack suppresses tombstones. -/
def stackInitRefIterator (st : List (RefsTable hashSize)) : MergedIter (stackMerged st) :=
  mergedTableInitIter (stackMerged st) true

/-- `reftable_stack_read_ref`; `none` stands for a positive return value. -/
def reftableStackReadRef (st : List (RefsTable hashSize)) (refname : CStr) :
    Except ReftableError (Option (RefRecord hashSize)) := do
  let it ← mergedIterSeek (stackInitRefIterator st) (refWant refname)
  let (code, ref, _) ← mergedIterNextVoid it none
  match code, ref with
  | .done, _ => .ok none
  | .ok, none => .error .api
  | .ok, some ref =>
    if ref.refname ≠ refname ∨ ref.isDeletion then .ok none else .ok (some ref)

/-! ## The copying loops -/

section Copy

variable {α W : Type} {vt : RecordVtable α} {ts : List (SortedTable vt)}
  {add : W → α → Except ReftableError W} {skip : α → Bool} {fuel : Nat} {w : W} {rec : Option α}

/-- A round at the end of the iteration. -/
theorem copyRecords_done {mi mi' : MergedIter ts} {rec' : Option α}
    (h : mergedIterNextVoid mi rec = .ok (.done, rec', mi')) :
    copyRecords skip add (fuel + 1) mi rec w = .ok w := by
  rw [copyRecords, h]
  rfl

/-- A round with a record. -/
theorem copyRecords_ok {mi mi' : MergedIter ts} {r : α}
    (h : mergedIterNextVoid mi rec = .ok (.ok, some r, mi')) :
    copyRecords skip add (fuel + 1) mi rec w =
      if skip r then copyRecords skip add fuel mi' (some r) w
      else add w r >>= copyRecords skip add fuel mi' (some r) := by
  rw [copyRecords, h]
  rfl

/-- The rounds of a copying loop keep what every single addition keeps. -/
theorem copyRecords_preserves {P : W → Prop}
    (hadd : ∀ w r w', P w → add w r = .ok w' → P w') (fuel : Nat) (mi : MergedIter ts)
    (rec : Option α) (w w' : W) (h : P w) (hok : copyRecords skip add fuel mi rec w = .ok w') :
    P w' := by
  induction fuel generalizing mi rec w with
  | zero => cases hok
  | succ fuel ih =>
    match hnext : mergedIterNextVoid mi rec with
    | .error e =>
      rw [copyRecords, hnext] at hok
      cases hok
    | .ok (.done, rec', mi') =>
      rw [copyRecords_done hnext] at hok
      cases hok
      exact h
    | .ok (.ok, none, mi') =>
      rw [copyRecords, hnext] at hok
      cases hok
    | .ok (.ok, some r, mi') =>
      rw [copyRecords_ok hnext] at hok
      split at hok
      · exact ih _ _ _ h hok
      · obtain ⟨w₁, hw, hok⟩ := exists_of_bind_eq_ok hok
        exact ih _ _ _ (hadd w r w₁ h hw) hok

variable [vt.Keyed]

/-- A copying loop adds the records of the view one after the other. -/
theorem copyRecords_eq (fuel : Nat) (mi : MergedIter ts) (rec : Option α) (w : W) (l : List α)
    (hfuel : mi.remaining < fuel) (hlive : Live mi) (hview : StreamView mi l) :
    copyRecords skip add fuel mi rec w =
      ((l.filter (visible vt mi.suppressDeletions)).filter (fun r => !skip r)).foldlM add w := by
  induction fuel generalizing mi rec w l with
  | zero => omega
  | succ fuel ih =>
    rcases skipDeletions_spec mergedIterNextEntry_spec (mi.remaining + 1) mi rec l (by omega) hlive
      hview with ⟨hnil, rec', mi', hok⟩ | ⟨r, l', mi', hcons, hok, hlive', hview', hsup, hrem⟩
    · rw [copyRecords_done hok, hnil]
      rfl
    rw [copyRecords_ok hok, hcons, ← hsup]
    have hrest : ∀ w, copyRecords skip add fuel mi' (some r) w = _ :=
      fun w => ih mi' (some r) w l' (by omega) hlive' hview'
    split_ifs with hskip
    · rw [filter_cons_of_neg (by simp [hskip]), hrest]
    rw [filter_cons_of_pos (by simp [hskip]), foldlM_cons]
    congr 1
    funext w
    exact hrest w

/-- A copy from a seek on adds the records of the merged view. -/
theorem copyRecords_seek (sup : Bool) (want : α) (w : W) {it : MergedIter ts}
    (hseek : mergedIterSeek (mergedTableInitIter ts sup) want = .ok it) :
    copyRecords skip add (it.remaining + 1) it none w =
      ((mergedView ts (vt.key want) sup).filter (fun r => !skip r)).foldlM add w := by
  obtain ⟨mi', hok, hlive, hs, hsup⟩ := mergedIterSeek_spec (mergedTableInitIter ts sup) want
  rw [hseek] at hok
  cases hok
  rw [copyRecords_eq (it.remaining + 1) it none w _ (by omega) hlive (streamView_overlay hs), hsup]
  rfl

end Copy

/-! ## The compacted table -/

variable {layer : BlockLayer hashSize} {w w' : TableWriter hashSize} {r : RefRecord hashSize}

/-- What `reftable_writer_add_ref` does when it succeeds: the record, which has a name and lies within
the limits, is appended. -/
theorem TableWriter.addRef_eq_ok (h : TableWriter.addRef layer w r = .ok w') :
    w' = { w with refs := w.refs ++ [r.relative w.minUpdateIndex] } ∧
      w.minUpdateIndex ≤ r.updateIndex ∧ r.updateIndex ≤ w.maxUpdateIndex ∧
      r.refname.val ≠ [] := by
  unfold TableWriter.addRef at h
  split at h
  · cases h
  rename_i hlimits
  obtain ⟨hmin, hmax⟩ := not_or.mp hlimits
  dsimp only at h
  generalize (if layer.refOpensBlock w.refs then []
    else lastKey (refRecordVtable hashSize).key w.refs) = last at h
  split at h
  · rename_i hkey
    split at h
    · refine ⟨(Except.ok.inj h).symm, not_lt.mp hmin, not_lt.mp hmax, fun hnil => ?_⟩
      change last < r.refname.val at hkey
      rw [hnil] at hkey
      exact not_lt_nil _ hkey
    · cases h
  · cases h

/-- Adding a list of refs appends it. -/
theorem foldlM_addRef_ok (rs : List (RefRecord hashSize))
    (h : rs.foldlM (TableWriter.addRef layer) w = .ok w') :
    w'.refs.map (RefRecord.rebased w'.minUpdateIndex)
      = w.refs.map (RefRecord.rebased w.minUpdateIndex) ++ rs := by
  induction rs generalizing w with
  | nil =>
    cases h
    simp
  | cons r rs ih =>
    rw [foldlM_cons] at h
    obtain ⟨w₁, hw, h⟩ := exists_of_bind_eq_ok h
    obtain ⟨rfl, -⟩ := TableWriter.addRef_eq_ok hw
    simp [ih h]

/-- Adding a log record only touches the logs. -/
theorem TableWriter.addLog_eq_ok {log : LogRecord hashSize}
    (h : TableWriter.addLog layer w log = .ok w') : ∃ logs, w' = { w with logs := logs } := by
  have hverbatim : ∀ log, TableWriter.addLogVerbatim layer w log = .ok w' →
      ∃ logs, w' = { w with logs := logs } := by
    intro log h
    unfold TableWriter.addLogVerbatim at h
    grind
  unfold TableWriter.addLog at h
  split at h
  · exact hverbatim _ h
  grind

/-- The refs that a compaction of the range writes. -/
def compactedRefs (st : List (StackTable hashSize)) (first last : Nat) :
    List (RefRecord hashSize) :=
  (mergedView (stackMerged ((subtables st first last).map (·.toRefsTable))) [] false).filter
    fun r => !(first == 0 && r.isDeletion)

variable {st : List (StackTable hashSize)} {first last : Nat}

/-- The refs of the writer after `stack_write_compact`. -/
theorem stackWriteCompact_refs {wr wr' : TableWriter hashSize}
    (h : stackWriteCompact layer st wr first last = .ok wr') :
    wr'.refs.map (RefRecord.rebased wr'.minUpdateIndex)
      = wr.refs.map (RefRecord.rebased wr.minUpdateIndex) ++ compactedRefs st first last := by
  unfold stackWriteCompact at h
  dsimp only at h
  obtain ⟨it, hseek, -⟩ := mergedIterSeek_spec (mergedTableInitIter
    ((subtables st first last).map fun t => t.toRefsTable.refTable) false)
    (refWant emptyName)
  rw [hseek] at h
  change copyRecords _ _ (it.remaining + 1) it none wr >>= _ = _ at h
  rw [copyRecords_seek false (refWant emptyName) wr hseek] at h
  -- the refs are added first
  obtain ⟨wr₁, hrefs, h⟩ := exists_of_bind_eq_ok h
  obtain ⟨it', -, h⟩ := exists_of_bind_eq_ok h
  have hlogs : wr'.refs = wr₁.refs ∧ wr'.minUpdateIndex = wr₁.minUpdateIndex := by
    refine copyRecords_preserves (P := fun w => w.refs = wr₁.refs ∧
      w.minUpdateIndex = wr₁.minUpdateIndex) ?_ _ _ _ _ _ ⟨rfl, rfl⟩ h
    intro w r w' hw hadd
    obtain ⟨logs, rfl⟩ := TableWriter.addLog_eq_ok hadd
    exact hw
  rw [hlogs.1, hlogs.2, foldlM_addRef_ok _ hrefs]
  unfold compactedRefs stackMerged
  rw [map_map]
  rfl

variable {exactLogMessage : Bool} {compacted : Option (StoredTable hashSize)}

/-- The refs of the compacted table as its iterators return them; none if it is empty. -/
theorem stackCompactLocked_refs
    (h : stackCompactLocked layer exactLogMessage st first last = .ok compacted) :
    first < st.length ∧
      (compacted.map fun t => t.refs.map (RefRecord.rebased t.minUpdateIndex)).getD [] =
        compactedRefs st first last := by
  unfold stackCompactLocked at h
  split at h
  · rename_i f l hfirst _
    refine ⟨(List.getElem?_eq_some_iff.mp hfirst).1, ?_⟩
    obtain ⟨wr, hwr, h⟩ := exists_of_bind_eq_ok h
    cases h
    have hrefs := stackWriteCompact_refs hwr
    change _ = [] ++ _ at hrefs
    rw [nil_append] at hrefs
    rw [← hrefs]
    unfold TableWriter.close
    grind
  · cases h

/-! ## The stack afterwards -/

/-- The records that a compaction writes. -/
theorem mem_compactedRefs :
    r ∈ compactedRefs st first last ↔
      newest (refRecordVtable hashSize).key r.refname.val
        ((stackMerged ((subtables st first last).map (·.toRefsTable))).map (·.records)) = some r ∧
      ¬ (first = 0 ∧ r.isDeletion = true) := by
  have hbot : ([] : Bytes) ≤ r.refname.val := not_lt.mp (not_lt_nil _)
  unfold compactedRefs mergedView
  rw [mem_filter, mem_filter, mem_overlay (runs_records _)]
  simp only [visible, Bool.false_and, Bool.not_false, and_true, Bool.not_eq_true',
    Bool.and_eq_false_iff, beq_eq_false_iff_ne, not_and_or, Bool.not_eq_true]
  constructor
  · rintro ⟨⟨-, hr⟩, hkeep⟩
    exact ⟨hr, hkeep⟩
  · rintro ⟨hr, hkeep⟩
    exact ⟨⟨hbot, hr⟩, hkeep⟩

/-- The refs of a compacted table are sorted. -/
theorem stackCompactLocked_sorted
    (h : stackCompactLocked layer exactLogMessage st first last = .ok compacted) :
    ∃ compacted' : Option (RefsTable hashSize), compacted'.map (·.toStoredTable) = compacted := by
  cases compacted with
  | none => exact ⟨none, rfl⟩
  | some t =>
    have hrefs : t.refs.map (RefRecord.rebased t.minUpdateIndex) = compactedRefs st first last :=
      (stackCompactLocked_refs h).2
    have hrun : Run (refRecordVtable hashSize).key
        (t.refs.map (RefRecord.rebased t.minUpdateIndex)) :=
      hrefs ▸ (run_mergedView _ _ _).filter _
    exact ⟨some { t with refs_sorted := (run_map (f := RefRecord.rebased _)).mp hrun }, rfl⟩

/-- The visible refs are the same before and after a compaction. -/
theorem mergedView_replaceRange (hle : first ≤ last) {compacted : Option (RefsTable hashSize)}
    (h : stackCompactLocked layer exactLogMessage st first last =
      .ok (compacted.map (·.toStoredTable))) (want : Bytes) :
    mergedView (stackMerged (replaceRange (st.map (·.toRefsTable)) first last compacted)) want true
      = mergedView (stackMerged (st.map (·.toRefsTable))) want true := by
  obtain ⟨hfirst, hrefs⟩ := stackCompactLocked_refs h
  let recs : List (StackTable hashSize) → List (List (RefRecord hashSize)) := fun ts =>
    (stackMerged (ts.map (·.toRefsTable))).map (·.records)
  have hruns : ∀ ts : List (StackTable hashSize), ∀ l ∈ recs ts,
      Run (refRecordVtable hashSize).key l := fun ts => runs_records _
  have hmapAppend : ∀ ts us : List (StackTable hashSize), recs (ts ++ us) = recs ts ++ recs us :=
    fun ts us => by simp only [recs, stackMerged, map_append]
  have hc : Run (refRecordVtable hashSize).key (compactedRefs st first last) :=
    (run_mergedView _ _ _).filter _
  have hpre : recs (st.take first) = [] ↔ first = 0 := by
    simp only [recs, stackMerged, map_eq_nil_iff, take_eq_nil_iff]
    grind
  -- the library's statement about one run in place of the range
  have hlib := filter_overlay_replace (fun r => true && (refRecordVtable hashSize).isDeletion r)
    (hruns (st.take first)) (hruns (subtables st first last)) (hruns (st.drop (last + 1))) hc want
    (fun r => by rw [mem_compactedRefs, hpre]; rfl)
  rw [← hmapAppend, ← hmapAppend, show _ ++ subtables st first last ++ _ = st from
    take_slice_drop st (Nat.le_succ_of_le hle)] at hlib
  refine Eq.trans ?_ hlib
  unfold mergedView replaceRange
  rw [← hrefs]
  cases compacted with
  | none =>
    refine Eq.trans ?_ (overlay_append_nil _ (hruns _) (hruns _) want).symm
    simp only [recs, stackMerged, ← map_take, ← map_drop, map_append, Option.toList, append_nil]
    rfl
  | some t =>
    simp only [recs, stackMerged, ← map_take, ← map_drop, map_append, Option.toList,
      map_cons, map_nil, Option.map_some, Option.getD_some]
    rfl

/-- A seek on the stack followed by repeated calls returns the visible refs. -/
theorem stackInitRefIterator_yields (st : List (RefsTable hashSize)) (refname : CStr) :
    ∃ it, mergedIterSeek (stackInitRefIterator st) (refWant refname) = .ok it ∧
      Yields mergedIterNextVoid it (mergedView (stackMerged st) refname.val true) := by
  obtain ⟨it, hok, hyields, -⟩ :=
    mergedIterSeek_yields_view (stackInitRefIterator st) (refWant refname)
  exact ⟨it, hok, hyields⟩

/-- `reftable_stack_read_ref` looks at the first visible ref from the name on. -/
theorem reftableStackReadRef_eq (st : List (RefsTable hashSize)) (refname : CStr) :
    reftableStackReadRef st refname = .ok
      (match mergedView (stackMerged st) refname.val true with
        | [] => none
        | ref :: _ => if ref.refname ≠ refname ∨ ref.isDeletion then none else some ref) := by
  obtain ⟨it, hok, hyields⟩ := stackInitRefIterator_yields st refname
  unfold reftableStackReadRef
  rw [hok]
  change mergedIterNextVoid it none >>= _ = _
  match hview : mergedView (stackMerged st) refname.val true with
  | [] =>
    rw [hview] at hyields
    obtain ⟨rec', mi', hnext⟩ := hyields none
    rw [hnext]
    rfl
  | ref :: refs =>
    rw [hview] at hyields
    obtain ⟨mi', hnext, -⟩ := hyields none
    rw [hnext]
    change (if _ then _ else _) = _
    dsimp only
    split <;> rfl

end GitCore.Reftable
