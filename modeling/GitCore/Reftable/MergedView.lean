import GitCore.Reftable.MergedSteps

/-! # What the merged iterator returns

`mergedView` says what a merged table is for: for every name the record of the newest table that
has one. A seek, from whatever state of the iterator, followed by repeated calls of
`merged_iter_next_void` returns exactly this view. -/

namespace GitCore.Reftable

open List BinaryHeap Overlay

variable {α : Type} {vt : RecordVtable α} {ts : List (SortedTable vt)} {mi : MergedIter ts} {r : α}
  {l : List α}

/-- Whether a record is returned. -/
def visible (vt : RecordVtable α) (suppressDeletions : Bool) (r : α) : Bool :=
  !(suppressDeletions && vt.isDeletion r)

/-- The merged view of a stack of tables from the key `want` on: for every key in ascending order
the record of the topmost table that has it, without the tombstones if they are suppressed. -/
def mergedView (ts : List (SortedTable vt)) (want : Bytes) (suppressDeletions : Bool) : List α :=
  (overlay vt.key want (ts.map (·.records))).filter (visible vt suppressDeletions)

/-- Repeated calls of `next` return the records of the list and then the end, whatever is in the
caller's record at each call. -/
def Yields
    (next : MergedIter ts → Option α → Except ReftableError (IterCode × Option α × MergedIter ts)) :
    MergedIter ts → List α → Prop
  | mi, [] => ∀ rec, ∃ rec' mi', next mi rec = .ok (.done, rec', mi')
  | mi, r :: rs => ∀ rec, ∃ mi', next mi rec = .ok (.ok, some r, mi') ∧ Yields next mi' rs

/-- The runs of a stack of tables. -/
theorem runs_records (ts : List (SortedTable vt)) : ∀ l ∈ ts.map (·.records), Run vt.key l := by
  intro l hl
  obtain ⟨t, -, rfl⟩ := mem_map.mp hl
  exact t.sorted

/-- The record that a lookup in a stack of tables finds. -/
theorem newest_records : newest vt.key (vt.key r) (ts.map (·.records)) = some r ↔
    ∃ i, r ∈ (ts.get i).records ∧
      ∀ j x, x ∈ (ts.get j).records → vt.key x = vt.key r → j ≤ i := by
  have hget : ∀ (i : Nat) l, (ts.map (·.records))[i]? = some l ↔
      ∃ h : i < ts.length, (ts.get ⟨i, h⟩).records = l := fun i l => by
    simp [getElem?_map, getElem?_eq_some_iff]
  rw [newest_eq_some _ (runs_records ts)]
  constructor
  · rintro ⟨-, i, l, hi, hr, hmax⟩
    obtain ⟨hlt, rfl⟩ := (hget i l).mp hi
    exact ⟨⟨i, hlt⟩, hr, fun j x hx => hmax j _ x ((hget j _).mpr ⟨j.isLt, rfl⟩) hx⟩
  · rintro ⟨i, hr, hmax⟩
    refine ⟨rfl, i, _, (hget i _).mpr ⟨i.isLt, rfl⟩, hr, fun j m x hj hx hxr => ?_⟩
    grind

/-! ## The view of a state -/

/-- The list of the records that the streams show, ascending. -/
structure StreamView (mi : MergedIter ts) (l : List α) : Prop where
  /-- The keys ascend strictly. -/
  run : Run vt.key l
  /-- A record is shown if its key is not in a stream further up. -/
  mem : ∀ r, r ∈ l ↔ ∃ i, r ∈ mi.stream i ∧ ∀ j x, x ∈ mi.stream j → vt.key x = vt.key r → j ≤ i

/-- Nothing is left. -/
theorem StreamView.eq_nil (h : StreamView mi l)
    (hempty : ∀ i, mi.stream i = []) : l = [] := by
  refine eq_nil_iff_forall_not_mem.mpr fun r hr => ?_
  obtain ⟨i, hi, -⟩ := (h.mem r).mp hr
  rw [hempty] at hi
  cases hi

/-- The record that is taken is the first of the view, and the rest is the view afterwards. -/
theorem StreamView.took {mi' : MergedIter ts} (h : StreamView mi l)
    (hlive : Live mi) (ht : Took mi mi' r) : ∃ l', l = r :: l' ∧ StreamView mi' l' := by
  obtain ⟨i, hi, hleast⟩ := ht.least
  have hmem : ∀ j x, x ∈ mi'.stream j ↔ x ∈ mi.stream j ∧ vt.key r < vt.key x := fun j x => by
    rw [ht.cut, mem_filter, decide_eq_true_iff]
  have hrl : r ∈ l := (h.mem r).mpr ⟨i, hi, fun j x hx => (hleast j x hx).2⟩
  -- the records above `r` are those the streams show after the step
  have hmem' : ∀ x, x ∈ l.filter (vt.key r < vt.key ·) ↔ ∃ i, x ∈ mi'.stream i ∧
      ∀ j y, y ∈ mi'.stream j → vt.key y = vt.key x → j ≤ i := fun x => by
    rw [mem_filter, decide_eq_true_iff, h.mem]
    constructor
    · rintro ⟨⟨k, hk, hmax⟩, hlt⟩
      exact ⟨k, (hmem k x).mpr ⟨hk, hlt⟩, fun j y hy => hmax j y ((hmem j y).mp hy).1⟩
    · rintro ⟨k, hk, hmax⟩
      obtain ⟨hk, hlt⟩ := (hmem k x).mp hk
      exact ⟨⟨k, hk, fun j y hy hyx => hmax j y ((hmem j y).mpr ⟨hy, hyx ▸ hlt⟩) hyx⟩, hlt⟩
  have hrun : Run vt.key (r :: l.filter (vt.key r < vt.key ·)) :=
    pairwise_cons.mpr ⟨fun x hx => of_decide_eq_true (mem_filter.mp hx).2, h.run.filter _⟩
  refine ⟨l.filter (vt.key r < vt.key ·), h.run.ext hrun fun x => ?_, hrun.tail, hmem'⟩
  rw [mem_cons, mem_filter, decide_eq_true_iff]
  constructor
  · intro hx
    obtain ⟨k, hk, hmax⟩ := (h.mem x).mp hx
    rcases (hleast k x hk).1.lt_or_eq with hlt | heq
    · exact .inr ⟨hx, hlt⟩
    -- one key, one record: both are in the topmost stream that has it
    have hki : k = i := le_antisymm ((hleast k x hk).2 heq.symm) (hmax i r hi heq)
    subst hki
    have h1 := (hlive.run k).find_eq_some.mpr ⟨hk, rfl⟩
    have h2 := (hlive.run k).find_eq_some.mpr ⟨hi, heq⟩
    exact .inl (Option.some.inj (h1.symm.trans h2))
  grind

/-! ## Skipping tombstones -/

section Skip

variable
  {next : MergedIter ts → Option α → Except ReftableError (IterCode × Option α × MergedIter ts)}
  {fuel : Nat} {mi' : MergedIter ts} {rec rec' : Option α}

/-- A round that gets a record. -/
theorem skipDeletions_ok (h : next mi rec = .ok (.ok, some r, mi')) :
    skipDeletions next (fuel + 1) mi rec =
      if mi'.suppressDeletions ∧ vt.isDeletion r then skipDeletions next fuel mi' (some r)
      else .ok (.ok, some r, mi') := by
  rw [skipDeletions, h]
  rfl

/-- `merged_iter_next_void` returns the first visible record of the view. -/
theorem skipDeletions_spec (hnext : NextSpec next) (fuel : Nat) (mi : MergedIter ts)
    (rec : Option α) (l : List α) (hfuel : mi.remaining < fuel) (hlive : Live mi) (hview : StreamView mi l) :
    (l.filter (visible vt mi.suppressDeletions) = [] ∧
      ∃ rec' mi', skipDeletions next fuel mi rec = .ok (.done, rec', mi')) ∨
    ∃ r l' mi', l.filter (visible vt mi.suppressDeletions)
        = r :: l'.filter (visible vt mi.suppressDeletions) ∧
      skipDeletions next fuel mi rec = .ok (.ok, some r, mi') ∧ Live mi' ∧ StreamView mi' l' ∧
      mi'.suppressDeletions = mi.suppressDeletions ∧ mi'.remaining < mi.remaining := by
  induction fuel generalizing mi rec l with
  | zero => omega
  | succ fuel ih =>
    rcases hnext mi rec hlive with ⟨hempty, rec', mi', hok⟩ | ⟨r, mi', hok, hlive', htook, hsup⟩
    · refine .inl ⟨?_, rec', mi', ?_⟩
      · rw [hview.eq_nil hempty, filter_nil]
      · rw [skipDeletions, hok]
        rfl
    obtain ⟨l', rfl, hview'⟩ := hview.took hlive htook
    have hrem := htook.remaining_lt hlive hlive'
    rw [skipDeletions_ok hok, hsup]
    split
    · rename_i hdel
      have hvis : visible vt mi.suppressDeletions r = false := by simp [visible, hdel]
      rw [filter_cons_of_neg (by simp [hvis]), ← hsup]
      rcases ih mi' (some r) l' (by omega) hlive' hview' with hend | ⟨r', l'', mi'', h⟩
      · exact .inl hend
      grind
    · rename_i hdel
      have hvis : visible vt mi.suppressDeletions r = true := by
        rw [visible, Bool.not_eq_true', Bool.and_eq_false_iff]
        grind
      grind

/-- Repeated calls return the visible records of the view. -/
theorem skipDeletions_yields (hnext : NextSpec next) (mi : MergedIter ts) (l : List α)
    (hlive : Live mi) (hview : StreamView mi l) :
    Yields (fun mi => skipDeletions next (mi.remaining + 1) mi) mi
      (l.filter (visible vt mi.suppressDeletions)) := by
  generalize hv : l.filter (visible vt mi.suppressDeletions) = v
  induction v generalizing mi l with
  | nil =>
    intro rec
    rcases skipDeletions_spec hnext (mi.remaining + 1) mi rec l (by omega) hlive hview with
      ⟨-, hok⟩ | ⟨r, l', mi', heq, -⟩
    · exact hok
    · rw [hv] at heq
      cases heq
  | cons r v ih =>
    intro rec
    rcases skipDeletions_spec hnext (mi.remaining + 1) mi rec l (by omega) hlive hview with
      ⟨hnil, -⟩ | ⟨r', l', mi', heq, hok, hlive', hview', hsup, -⟩
    · rw [hv] at hnil
      cases hnil
    · rw [hv] at heq
      cases heq
      exact ⟨mi', hok, ih mi' l' hlive' hview' (by rw [hsup])⟩

end Skip

/-! ## Seeking -/

section Seek

variable [vt.Keyed] {n : Nat}

omit [vt.Keyed] in
/-- Removing an entry shortens the queue, whatever its order. -/
theorem mergedIterPqueueRemove_size (rec : Fin n → Option α) (heap : Array (Fin n)) :
    (mergedIterPqueueRemove vt rec heap).size = heap.size - 1 := by
  have hperm := siftDown_perm (pqMinChild vt rec) heap.size (dropRoot heap) 0
  have hlen := hperm.length_eq
  rw [Array.length_toList, Array.length_toList] at hlen
  rw [mergedIterPqueueRemove, hlen, dropRoot]
  grind

omit [vt.Keyed] in
/-- The queue is empty after draining it. -/
theorem drainPq_eq_empty (rec : Fin n → Option α) (fuel : Nat) (heap : Array (Fin n))
    (hfuel : heap.size ≤ fuel) : drainPq vt rec fuel heap = #[] := by
  induction fuel generalizing heap with
  | zero => exact Array.eq_empty_of_size_eq_zero (Nat.le_zero.mp hfuel)
  | succ fuel ih =>
    rw [drainPq]
    split
    · rename_i hempty
      exact Array.isEmpty_iff.mp hempty
    · exact ih _ (by rw [mergedIterPqueueRemove_size]; omega)

/-- Seeking one sub-iterator: its stream starts at `want` afterwards. -/
theorem seekSubiter_spec (want : α) {held : Fin ts.length → Prop}
    {i : Fin ts.length} (h : MergedInv mi fun j => j = i ∨ held j) (hnot : ¬ held i) :
    ∃ mi', seekSubiter want mi i = .ok mi' ∧ MergedInv mi' held ∧
      (∀ j, mi'.stream j = if j = i then (ts.get i).recordsFrom want else mi.stream j) ∧
      mi'.suppressDeletions = mi.suppressDeletions ∧ mi'.advanceIndex = mi.advanceIndex := by
  have hq : i ∉ mi.pq.toList := h.out i (.inl rfl)
  have hrun : Run vt.key ((ts.get i).recordsFrom want) := (ts.get i).sorted.dropBelow _
  unfold seekSubiter iteratorSeek
  split_ifs with hend
  · refine ⟨_, rfl, h.setSubiter _ (.inr rfl), fun j => ?_, rfl, rfl⟩
    rw [MergedIter.stream_setSubiter hq, isEmpty_iff.mp hend.2]
    rfl
  have h' : MergedInv (mi.setSubiter i
      { iter := some ((ts.get i).recordsFrom want), record := (mi.subiters i).record })
      fun j => j = i ∨ held j :=
    MergedInv.setSubiter (by simpa only [or_self_left] using h) _ (.inl (.inl rfl))
  obtain ⟨code, mi', hadv, hinv, hs, -, hsup, hidx⟩ := mergedIterAdvanceSubiter_spec h' hnot
    (congrArg MergedSubiter.iter (mi.setSubiter_self i _)) hrun
  refine ⟨mi', ?_, hinv, fun j => ?_, hsup, hidx⟩
  · dsimp only
    rw [hadv]
    rfl
  · rw [hs, MergedIter.stream_setSubiter hq]
    rfl

/-- Seeking the sub-iterators of a list that are held so far. -/
theorem seekSubiters_spec (want : α) (is : List (Fin ts.length)) (hnodup : is.Nodup)
    (mi : MergedIter ts) (h : MergedInv mi (· ∈ is)) :
    ∃ mi', is.foldlM (seekSubiter want) mi = .ok mi' ∧ MergedInv mi' (fun _ => False) ∧
      (∀ j, mi'.stream j = if j ∈ is then (ts.get j).recordsFrom want else mi.stream j) ∧
      mi'.suppressDeletions = mi.suppressDeletions ∧ mi'.advanceIndex = mi.advanceIndex := by
  induction is generalizing mi with
  | nil => exact ⟨mi, rfl, by simpa using h, by simp, rfl, rfl⟩
  | cons i is ih =>
    obtain ⟨hi, hnodup⟩ := nodup_cons.mp hnodup
    obtain ⟨mi₁, hok, hinv, hs, hsup, hidx⟩ :=
      seekSubiter_spec want (by simpa only [mem_cons] using h) hi
    obtain ⟨mi', hok', hinv', hs', hsup', hidx'⟩ := ih hnodup mi₁ hinv
    refine ⟨mi', ?_, hinv', fun j => ?_, hsup'.trans hsup, hidx'.trans hidx⟩
    · rw [foldlM_cons, hok]
      exact hok'
    grind

/-- After a seek, from whatever state, the streams are what the tables have from `want` on. -/
theorem mergedIterSeek_spec (mi : MergedIter ts) (want : α) :
    ∃ mi', mergedIterSeek mi want = .ok mi' ∧ Live mi' ∧
      (∀ j, mi'.stream j = (ts.get j).recordsFrom want) ∧
      mi'.suppressDeletions = mi.suppressDeletions := by
  unfold mergedIterSeek
  rw [drainPq_eq_empty _ _ _ le_rfl]
  obtain ⟨mi', hok, hinv, hs, hsup, hidx⟩ := seekSubiters_spec want (List.finRange ts.length)
    (nodup_finRange _) { mi with advanceIndex := none, pq := #[] }
    ⟨nodup_nil, fun i x y _ hx => by simp at hx, by simp, by simp, by simp⟩
  refine ⟨mi', hok, ?_, fun j => by simpa using hs j, hsup⟩
  unfold Live
  rw [hidx]
  exact hinv

omit [vt.Keyed] in
/-- The view of the state after a seek is the overlay of the tables. -/
theorem streamView_overlay {want : α} (hs : ∀ j, mi.stream j = (ts.get j).recordsFrom want) :
    StreamView mi (overlay vt.key (vt.key want) (ts.map (·.records))) := by
  have hmem : ∀ j x, x ∈ mi.stream j ↔ x ∈ (ts.get j).records ∧ vt.key want ≤ vt.key x :=
    fun j x => by rw [hs]; exact (ts.get j).sorted.mem_dropBelow
  refine ⟨run_overlay _ (runs_records ts), fun r => ?_⟩
  rw [mem_overlay (runs_records ts), newest_records]
  constructor
  · rintro ⟨hwant, i, hr, hmax⟩
    exact ⟨i, (hmem i r).mpr ⟨hr, hwant⟩, fun j x hx => hmax j x ((hmem j x).mp hx).1⟩
  · rintro ⟨i, hi, hmax⟩
    obtain ⟨hr, hwant⟩ := (hmem i r).mp hi
    exact ⟨hwant, i, hr, fun j x hx hxr => hmax j x ((hmem j x).mpr ⟨hx, hxr ▸ hwant⟩) hxr⟩

/-- A seek followed by repeated calls returns the merged view, through the shortcut for an empty
queue or through the queue alone. -/
theorem mergedIterSeek_yields_view (mi : MergedIter ts) (want : α) :
    ∃ mi', mergedIterSeek mi want = .ok mi' ∧
      Yields mergedIterNextVoid mi' (mergedView ts (vt.key want) mi.suppressDeletions) ∧
      Yields mergedIterNextVoidQueued mi' (mergedView ts (vt.key want) mi.suppressDeletions) := by
  obtain ⟨mi', hok, hlive, hs, hsup⟩ := mergedIterSeek_spec mi want
  have hview := streamView_overlay hs
  rw [← hsup]
  exact ⟨mi', hok, skipDeletions_yields mergedIterNextEntry_spec mi' _ hlive hview,
    skipDeletions_yields mergedIterNextEntryQueued_spec mi' _ hlive hview⟩

end Seek

/-! ## The merged view of refs -/

/-- The view ascends strictly. -/
theorem run_mergedView (ts : List (SortedTable vt)) (want : Bytes) (suppressDeletions : Bool) :
    Run vt.key (mergedView ts want suppressDeletions) :=
  (run_overlay want (runs_records ts)).filter _

/-- The records of the view. -/
theorem mem_mergedView {want : Bytes} {suppressDeletions : Bool} :
    r ∈ mergedView ts want suppressDeletions ↔
      want ≤ vt.key r ∧ ¬ (suppressDeletions ∧ vt.isDeletion r) ∧
      ∃ i, r ∈ (ts.get i).records ∧
        ∀ j x, x ∈ (ts.get j).records → vt.key x = vt.key r → j ≤ i := by
  rw [mergedView, mem_filter, mem_overlay (runs_records ts), newest_records]
  simp only [visible, Bool.not_eq_true', Bool.and_eq_false_iff, not_and_or, Bool.not_eq_true]
  tauto

/-- **The merged view.** For every stack of tables, every state of an iterator over it and every
wanted name, a seek followed by repeated calls of `merged_iter_next_void` returns the view of the
stack from that name on: its names ascend strictly, and it has exactly those records, of a name
that is not below the wanted one, whose table is the topmost that has the name, tombstones left out
if and only if they are suppressed. The result is the same without the shortcut for an empty queue,
and the same as the one of a fresh iterator. -/
theorem mergedIterSeek_refs {hashSize : Nat} (ts : List (SortedTable (refRecordVtable hashSize)))
    (mi : MergedIter ts) (want : RefRecord hashSize) :
    ∃ view : List (RefRecord hashSize),
      view.Pairwise (fun a b => a.refname < b.refname) ∧
      (∀ r, r ∈ view ↔ want.refname ≤ r.refname ∧ ¬ (mi.suppressDeletions ∧ r.isDeletion) ∧
        ∃ i, r ∈ (ts.get i).records ∧
          ∀ j x, x ∈ (ts.get j).records → x.refname = r.refname → j ≤ i) ∧
      (∃ mi', mergedIterSeek mi want = .ok mi' ∧ Yields mergedIterNextVoid mi' view ∧
        Yields mergedIterNextVoidQueued mi' view) ∧
      ∃ fresh, mergedIterSeek (mergedTableInitIter ts mi.suppressDeletions) want = .ok fresh ∧
        Yields mergedIterNextVoid fresh view := by
  refine ⟨mergedView ts want.refname.val mi.suppressDeletions,
    (run_mergedView ts want.refname.val mi.suppressDeletions).imp fun h => h, fun r => ?_,
    mergedIterSeek_yields_view mi want, ?_⟩
  · rw [mem_mergedView]
    simp only [Subtype.ext_iff]
    rfl
  · obtain ⟨fresh, hok, hyields, -⟩ :=
      mergedIterSeek_yields_view (mergedTableInitIter ts mi.suppressDeletions) want
    exact ⟨fresh, hok, hyields⟩

end GitCore.Reftable
