import GitCore.Reftable.MergedQueue
import Mathlib.Algebra.Order.BigOperators.Group.Finset

/-! # The steps of the merged iterator

The state of the iterator is read as one `stream` of records for each table: the loaded buffer, if
the sub-iterator is queued, followed by what the table iterator has still to return. Advancing a
sub-iterator does not change the streams. Returning an entry takes the least record of the topmost
stream that has it and drops everything that is not greater from every stream (`Took`), with the
shortcut for an empty queue and without it. -/

namespace GitCore.Reftable

open List BinaryHeap Overlay

variable {α : Type} {vt : RecordVtable α} {ts : List (SortedTable vt)}

/-! ## Streams and the invariant -/

/-- The records that table `i` still contributes. -/
def MergedIter.stream (mi : MergedIter ts) (i : Fin ts.length) : List α :=
  (if i ∈ mi.pq.toList then (mi.recs i).toList else []) ++ (mi.subiters i).iter.getD []

/-- The invariant of the iterator. The sub-iterators in `held` are neither queued nor at their
end. -/
structure MergedInv (mi : MergedIter ts) (held : Fin ts.length → Prop) : Prop where
  /-- No sub-iterator is queued twice. -/
  nodup : mi.pq.toList.Nodup
  /-- The queue is a heap. -/
  ordered : Ordered (PqLe vt mi.recs) mi.pq
  /-- A queued sub-iterator has its buffer loaded. -/
  loaded : ∀ i ∈ mi.pq.toList, ∃ r rest, mi.recs i = some r ∧
    (mi.subiters i).iter = some rest ∧ Run vt.key (r :: rest)
  /-- All others are at their end. -/
  idle : ∀ i, i ∉ mi.pq.toList → ¬ held i → (mi.subiters i).iter.getD [] = []
  /-- What is held is not queued. -/
  out : ∀ i, held i → i ∉ mi.pq.toList

variable {i : Fin ts.length} {mi : MergedIter ts} {held : Fin ts.length → Prop}

/-- The stream of a queued sub-iterator. -/
theorem MergedIter.stream_queued {r : α} {rest : List α}
    (hi : i ∈ mi.pq.toList) (hr : mi.recs i = some r) (hrest : (mi.subiters i).iter = some rest) :
    mi.stream i = r :: rest := by
  simp [stream, hi, hr, hrest]

/-- The stream of a sub-iterator that is not queued. -/
theorem MergedIter.stream_unqueued (hi : i ∉ mi.pq.toList) :
    mi.stream i = (mi.subiters i).iter.getD [] := by
  simp [stream, hi]

/-- The streams of sub-iterators that are not held are runs. -/
theorem MergedInv.run (h : MergedInv mi held) (hi : ¬ held i) : Run vt.key (mi.stream i) := by
  by_cases hq : i ∈ mi.pq.toList
  · obtain ⟨r, rest, hr, hrest, hrun⟩ := h.loaded i hq
    rw [mi.stream_queued hq hr hrest]
    exact hrun
  · rw [mi.stream_unqueued hq, h.idle i hq hi]
    exact List.Pairwise.nil

/-- The number of remaining records is the length of the streams. -/
theorem MergedInv.remaining_eq
    (h : MergedInv mi held) : mi.remaining = ∑ i, (mi.stream i).length := by
  have hlen : ∀ i, (mi.stream i).length =
      (if i ∈ mi.pq.toList then 1 else 0) + ((mi.subiters i).iter.getD []).length := by
    intro i
    by_cases hq : i ∈ mi.pq.toList
    · obtain ⟨r, rest, hr, hrest, -⟩ := h.loaded i hq
      rw [mi.stream_queued hq hr hrest, if_pos hq, hrest, length_cons, Option.getD_some,
        Nat.add_comm]
    · rw [mi.stream_unqueued hq, if_neg hq, Nat.zero_add]
  have hcard : ∑ i, (if i ∈ mi.pq.toList then 1 else 0) = mi.pq.size := by
    rw [Finset.sum_boole, ← Array.length_toList, ← toFinset_card_of_nodup h.nodup]
    simp only [Nat.cast_id]
    congr 1
    ext i
    simp
  rw [MergedIter.remaining, Finset.sum_congr rfl fun i _ => hlen i, Finset.sum_add_distrib, hcard]

/-! ## The steps -/

/-- Replacing a sub-iterator that is not queued by one that is held or at its end. -/
theorem MergedInv.setSubiter (h : MergedInv mi fun j => j = i ∨ held j) (s : MergedSubiter α)
    (hs : held i ∨ s.iter.getD [] = []) : MergedInv (mi.setSubiter i s) held where
  nodup := h.nodup
  ordered := h.ordered.mono fun x hx y hy hle => by
    have hne : ∀ z ∈ mi.pq.toList, z ≠ i := fun z hz heq => h.out i (.inl rfl) (heq ▸ hz)
    exact (PqLe.congr (mi.recs_setSubiter_of_ne s (hne x hx))
      (mi.recs_setSubiter_of_ne s (hne y hy))).mpr hle
  loaded := fun j hj => by
    have hne : j ≠ i := fun heq => h.out i (.inl rfl) (heq ▸ hj)
    rw [mi.recs_setSubiter_of_ne s hne, mi.setSubiter_of_ne s hne]
    exact h.loaded j hj
  idle := fun j hj hheld => by
    by_cases hji : j = i
    · subst hji
      rw [mi.setSubiter_self]
      exact hs.resolve_left hheld
    · rw [mi.setSubiter_of_ne s hji]
      exact h.idle j hj (by simp [hji, hheld])
  out := fun j hj => h.out j (.inr hj)

/-- The streams after such a replacement. -/
theorem MergedIter.stream_setSubiter (hi : i ∉ mi.pq.toList)
    (s : MergedSubiter α) (j : Fin ts.length) :
    (mi.setSubiter i s).stream j = if j = i then s.iter.getD [] else mi.stream j := by
  by_cases hji : j = i
  · subst hji
    have hj : j ∉ (mi.setSubiter j s).pq.toList := hi
    rw [if_pos rfl, MergedIter.stream_unqueued hj, mi.setSubiter_self]
  · rw [if_neg hji, MergedIter.stream, mi.recs_setSubiter_of_ne s hji, mi.setSubiter_of_ne s hji]
    rfl

section Steps

variable [vt.Keyed] {rest : List α} {r : α}

/-- Queueing a held sub-iterator with a loaded buffer. -/
theorem MergedInv.queue (h : MergedInv mi fun j => j = i ∨ held j)
    (hnot : ¬ held i) (hr : mi.recs i = some r) (hrest : (mi.subiters i).iter = some rest)
    (hrun : Run vt.key (r :: rest)) :
    let mi' := { mi with pq := mergedIterPqueueAdd vt mi.recs mi.pq i }
    MergedInv mi' held ∧ ∀ j, mi'.stream j = if j = i then r :: rest else mi.stream j := by
  have hq : i ∉ mi.pq.toList := h.out i (.inl rfl)
  obtain ⟨hord, hperm⟩ := mergedIterPqueueAdd_spec h.ordered i
  intro mi'
  have hmem : ∀ j, j ∈ mi'.pq.toList ↔ j = i ∨ j ∈ mi.pq.toList := fun j => by
    rw [hperm.mem_iff, mem_cons]
  refine ⟨⟨?_, hord, fun j hj => ?_, fun j hj hheld => ?_, fun j hj hmem' => ?_⟩, fun j => ?_⟩
  · exact hperm.nodup_iff.mpr (nodup_cons.mpr ⟨hq, h.nodup⟩)
  · rcases (hmem j).mp hj with rfl | hj
    · exact ⟨r, rest, hr, hrest, hrun⟩
    · exact h.loaded j hj
  · rw [hmem, not_or] at hj
    exact h.idle j hj.2 (by simp [hj.1, hheld])
  · rcases (hmem j).mp hmem' with rfl | hmem'
    · exact hnot hj
    · exact h.out j (.inr hj) hmem'
  by_cases hji : j = i
  · subst hji
    rw [if_pos rfl, MergedIter.stream_queued ((hmem j).mpr (.inl rfl)) hr hrest]
  · rw [if_neg hji]
    simp only [MergedIter.stream, hmem, hji, false_or]
    rfl

/-- Loading the next record of a held sub-iterator does not change the streams. -/
theorem mergedIterAdvanceSubiter_spec (h : MergedInv mi fun j => j = i ∨ held j)
    (hnot : ¬ held i) (hrest : (mi.subiters i).iter = some rest) (hrun : Run vt.key rest) :
    ∃ code mi', mergedIterAdvanceSubiter mi i = .ok (code, mi') ∧ MergedInv mi' held ∧
      (∀ j, mi'.stream j = mi.stream j) ∧ (∀ j, j ≠ i → mi'.subiters j = mi.subiters j) ∧
      mi'.suppressDeletions = mi.suppressDeletions ∧ mi'.advanceIndex = mi.advanceIndex := by
  have hq : i ∉ mi.pq.toList := h.out i (.inl rfl)
  have hstream : mi.stream i = rest := by rw [mi.stream_unqueued hq, hrest, Option.getD_some]
  unfold mergedIterAdvanceSubiter
  rw [hrest]
  cases rest with
  | nil =>
    refine ⟨_, _, rfl, h.setSubiter _ (.inr rfl), fun j => ?_,
      fun j hj => mi.setSubiter_of_ne _ hj, rfl, rfl⟩
    rw [MergedIter.stream_setSubiter hq]
    grind
  | cons r rest =>
    -- the sub-iterator is first changed, still held, and then queued
    have h' : MergedInv (mi.setSubiter i { iter := some rest, record := some r })
        fun j => j = i ∨ held j :=
      MergedInv.setSubiter (by simpa only [or_self_left] using h) _ (.inl (.inl rfl))
    obtain ⟨hinv, hs⟩ := h'.queue hnot (mi.recs_setSubiter_self _ _)
      (by rw [mi.setSubiter_self]) hrun
    refine ⟨_, _, rfl, hinv, fun j => ?_, fun j hj => mi.setSubiter_of_ne _ hj, rfl, rfl⟩
    rw [hs, MergedIter.stream_setSubiter hq]
    grind

variable {e : Fin ts.length}

omit [vt.Keyed] in
/-- The root of the queue: the least record, of the topmost table that has it. -/
theorem MergedInv.root_le (h : MergedInv mi held) (he : mi.pq[0]? = some e) :
    ∃ r rest, mi.recs e = some r ∧ (mi.subiters e).iter = some rest ∧ Run vt.key (r :: rest) ∧
      mi.stream e = r :: rest ∧
      ∀ j x, ¬ held j → x ∈ mi.stream j → vt.key r ≤ vt.key x ∧ (vt.key x = vt.key r → j ≤ e) := by
  have hmem : e ∈ mi.pq.toList := Array.mem_toList_iff.mpr (Array.mem_of_getElem? he)
  obtain ⟨r, rest, hr, hrest, hrun⟩ := h.loaded e hmem
  refine ⟨r, rest, hr, hrest, hrun, mi.stream_queued hmem hr hrest, fun j x hj hx => ?_⟩
  by_cases hq : j ∈ mi.pq.toList
  · obtain ⟨y, ys, hy, hys, hyrun⟩ := h.loaded j hq
    rw [mi.stream_queued hq hy hys] at hx
    have hle := (PqLe.loaded hr hy).mp (h.ordered.root he hq)
    rcases mem_cons.mp hx with rfl | hx
    · grind
    · have hlt : vt.key r < vt.key x :=
        lt_of_le_of_lt (hle.elim le_of_lt fun h => h.1.le) (hyrun.head_lt hx)
      exact ⟨hlt.le, fun hxr => absurd hlt (by rw [hxr]; exact lt_irrefl _)⟩
  · rw [mi.stream_unqueued hq, h.idle j hq hj] at hx
    cases hx

/-- Removing the root from the queue: the sub-iterator is held from then on. -/
theorem MergedInv.popPq (h : MergedInv mi held) (he : mi.pq[0]? = some e) :
    MergedInv mi.popPq (fun j => j = e ∨ held j) ∧
      ∀ j, mi.popPq.stream j = if j = e then (mi.subiters e).iter.getD [] else mi.stream j := by
  obtain ⟨hord, hperm⟩ := mergedIterPqueueRemove_spec h.ordered he
  have hnodup := nodup_cons.mp (hperm.nodup_iff.mp h.nodup)
  have hmem : ∀ j, j ∈ mi.pq.toList ↔ j = e ∨ j ∈ mi.popPq.pq.toList := fun j => by
    rw [hperm.mem_iff, mem_cons]
    rfl
  refine ⟨⟨hnodup.2, hord, fun j hj => h.loaded j ((hmem j).mpr (.inr hj)),
    fun j hj hheld => ?_, fun j hj hq => ?_⟩, fun j => ?_⟩
  · rw [not_or] at hheld
    exact h.idle j (by rw [hmem]; simp [hheld.1, hj]) hheld.2
  · rcases hj with rfl | hj
    · exact hnodup.1 hq
    · exact h.out j hj ((hmem j).mpr (.inr hq))
  by_cases hje : j = e
  · subst hje
    rw [if_pos rfl, MergedIter.stream_unqueued hnodup.1]
    rfl
  · rw [if_neg hje]
    simp only [MergedIter.stream, hmem, hje, false_or]
    rfl

/-- Dropping the records that the buffer of `entry` shadows. Every stream but the one of `entry`
is cut to the records above its key. -/
theorem dropShadowed_spec {entry : Fin ts.length} (fuel : Nat) (mi : MergedIter ts)
    (hfuel : mi.remaining < fuel) (h : MergedInv mi (· = entry)) (hr : mi.recs entry = some r)
    (hmin : ∀ j x, j ≠ entry → x ∈ mi.stream j → vt.key r ≤ vt.key x) :
    ∃ mi', dropShadowed entry fuel mi = .ok mi' ∧ MergedInv mi' (· = entry) ∧
      mi'.subiters entry = mi.subiters entry ∧ mi'.stream entry = mi.stream entry ∧
      (∀ j, j ≠ entry → mi'.stream j = (mi.stream j).filter (vt.key r < vt.key ·)) ∧
      mi'.suppressDeletions = mi.suppressDeletions := by
  induction fuel generalizing mi with
  | zero => omega
  | succ fuel ih =>
    -- when nothing is left to drop, the filter changes nothing
    have hkeep : (∀ j x, j ≠ entry → x ∈ mi.stream j → vt.key r < vt.key x) →
        ∀ j, j ≠ entry → mi.stream j = (mi.stream j).filter (vt.key r < vt.key ·) :=
      fun hgt j hj => (filter_eq_self.mpr fun x hx => by simpa using hgt j x hj hx).symm
    rw [dropShadowed]
    split
    · rename_i hnone
      have hempty : mi.pq.toList = [] := by
        rw [Array.getElem?_eq_none_iff, Nat.le_zero, ← Array.length_toList] at hnone
        exact eq_nil_of_length_eq_zero hnone
      refine ⟨mi, rfl, h, rfl, rfl, hkeep fun j x hj hx => ?_, rfl⟩
      rw [mi.stream_unqueued (by simp [hempty]), h.idle j (by simp [hempty]) hj] at hx
      cases hx
    · rename_i top htop
      obtain ⟨y, rest, hy, hrest, hrun, hstream, hleast⟩ := h.root_le htop
      obtain ⟨hpop, hpops⟩ := h.popPq htop
      have hne : top ≠ entry := fun heq =>
        h.out entry rfl (heq ▸ Array.mem_toList_iff.mpr (Array.mem_of_getElem? htop))
      split
      · rename_i hgt
        refine ⟨mi, rfl, h, rfl, rfl, hkeep fun j x hj hx => ?_, rfl⟩
        have hlt : vt.key r < vt.key y := by
          rw [hy, hr, recordCmp, RecordVtable.Keyed.cmp_eq, bytesCmp_eq_gt] at hgt
          exact hgt
        exact lt_of_lt_of_le hlt (hleast j x hj hx).1
      · rename_i hngt
        -- the top is not above the entry, hence equal to it
        have heq : vt.key y = vt.key r := by
          rw [hy, hr, recordCmp, RecordVtable.Keyed.cmp_eq, bytesCmp_eq_gt, not_lt] at hngt
          exact le_antisymm hngt (hmin top y hne (by rw [hstream]; exact mem_cons_self))
        obtain ⟨code, mi₁, hadv, hinv, hs, hsub, hsup, -⟩ :=
          mergedIterAdvanceSubiter_spec hpop hne hrest hrun.tail
        have hs₁ : ∀ j, mi₁.stream j = if j = top then rest else mi.stream j := fun j => by
          rw [hs, hpops, hrest, Option.getD_some]
        have hrem : mi₁.remaining < mi.remaining := by
          rw [hinv.remaining_eq, h.remaining_eq]
          refine Finset.sum_lt_sum (fun j _ => ?_) ⟨top, Finset.mem_univ _, ?_⟩
          · grind
          grind
        have hentry : mi₁.subiters entry = mi.subiters entry := hsub entry hne.symm
        obtain ⟨mi', hok, hinv', hsub', hse, hcut, hsup'⟩ := ih mi₁ (by omega) hinv
          (by rw [MergedIter.recs, hentry]; exact hr)
          (fun j x hj hx => hmin j x hj (by grind))
        refine ⟨mi', by rw [hadv]; exact hok, hinv', hsub'.trans hentry, ?_, fun j hj => ?_,
          hsup'.trans hsup⟩
        · rw [hse, hs₁, if_neg hne.symm]
        grind

/-! ## Returning an entry -/

omit [vt.Keyed] in
/-- Going from `mi` to `mi'` took `r` out of the streams: the least record, of the topmost table
that has it, with everything it shadows. -/
structure Took (mi mi' : MergedIter ts) (r : α) : Prop where
  /-- Where `r` comes from. -/
  least : ∃ i, r ∈ mi.stream i ∧ ∀ j x, x ∈ mi.stream j →
    vt.key r ≤ vt.key x ∧ (vt.key x = vt.key r → j ≤ i)
  /-- What is left. -/
  cut : ∀ j, mi'.stream j = (mi.stream j).filter (vt.key r < vt.key ·)

/-- Between two calls: what `advance_index` names is held, with its iterator positioned. -/
def Live (mi : MergedIter ts) : Prop :=
  match mi.advanceIndex with
  | none => MergedInv mi fun _ => False
  | some e => MergedInv mi (· = e) ∧ ∃ rest, (mi.subiters e).iter = some rest ∧ Run vt.key rest

section

omit [vt.Keyed]

/-- All streams of a live iterator are runs. -/
theorem Live.run (h : Live mi) (i : Fin ts.length) : Run vt.key (mi.stream i) := by
  unfold Live at h
  split at h
  · exact h.run not_false
  rename_i e _
  obtain ⟨hinv, rest, hrest, hrun⟩ := h
  by_cases hie : i = e
  · subst hie
    rw [mi.stream_unqueued (hinv.out i rfl), hrest]
    exact hrun
  · exact hinv.run hie

/-- The number of remaining records of a live iterator. -/
theorem Live.remaining_eq (h : Live mi) : mi.remaining = ∑ i, (mi.stream i).length := by
  unfold Live at h
  split at h
  · exact h.remaining_eq
  · exact h.1.remaining_eq

/-- Returning a record makes progress. -/
theorem Took.remaining_lt {mi' : MergedIter ts} (h : Took mi mi' r) (hl : Live mi)
    (hl' : Live mi') : mi'.remaining < mi.remaining := by
  obtain ⟨i, hi, -⟩ := h.least
  rw [hl.remaining_eq, hl'.remaining_eq]
  refine Finset.sum_lt_sum (fun j _ => ?_) ⟨i, Finset.mem_univ _, ?_⟩
  · rw [h.cut]
    exact length_filter_le _ _
  · rw [h.cut]
    exact length_filter_lt_length_iff_exists.mpr ⟨r, hi, by simp⟩

end

/-- What a way to get the next entry has to do. -/
def NextSpec
    (next : MergedIter ts → Option α → Except ReftableError (IterCode × Option α × MergedIter ts)) :
    Prop :=
  ∀ mi rec, Live mi →
    ((∀ i, mi.stream i = []) ∧ ∃ rec' mi', next mi rec = .ok (.done, rec', mi')) ∨
    ∃ r mi', next mi rec = .ok (.ok, some r, mi') ∧ Live mi' ∧ Took mi mi' r ∧
      mi'.suppressDeletions = mi.suppressDeletions

omit [vt.Keyed] in
/-- Handing the record of a held sub-iterator out makes it the one to advance. -/
theorem MergedInv.handOut (h : MergedInv mi (· = e)) (rec : Option α)
    (hiter : (mi.subiters e).iter = some rest) (hrun : Run vt.key rest) :
    Live (mi.handOut e rec) := by
  have hset : MergedInv (mi.setSubiter e { iter := (mi.subiters e).iter, record := rec }) (· = e) :=
    MergedInv.setSubiter (by simpa only [or_self] using h) _ (.inl rfl)
  refine ⟨{ hset with }, rest, ?_, hrun⟩
  have hself : (mi.handOut e rec).subiters e = { iter := (mi.subiters e).iter, record := rec } :=
    mi.setSubiter_self e _
  rw [hself, hiter]

omit [vt.Keyed] in
/-- It does not change the streams. -/
theorem MergedIter.stream_handOut {rec : Option α} (he : e ∉ mi.pq.toList) (j : Fin ts.length) :
    (mi.handOut e rec).stream j = mi.stream j := by
  refine (MergedIter.stream_setSubiter he _ j).trans ?_
  split
  · rename_i hj
    rw [hj, mi.stream_unqueued he]
  · rfl

/-- The entry taken off the queue. -/
theorem takeEntry_spec (rec : Option α) (h : MergedInv mi fun _ => False) :
    ((∀ i, mi.stream i = []) ∧ takeEntry mi rec = .ok (.done, rec, mi)) ∨
    ∃ r mi', takeEntry mi rec = .ok (.ok, some r, mi') ∧ Live mi' ∧ Took mi mi' r ∧
      mi'.suppressDeletions = mi.suppressDeletions := by
  unfold takeEntry
  split
  · rename_i hnone
    refine .inl ⟨fun i => ?_, rfl⟩
    have hi : i ∉ mi.pq.toList := by
      rw [Array.getElem?_eq_none_iff, Nat.le_zero, ← Array.length_toList] at hnone
      rw [eq_nil_of_length_eq_zero hnone]
      exact not_mem_nil
    rw [mi.stream_unqueued hi, h.idle i hi not_false]
  · rename_i e he
    obtain ⟨r, rest, hr, hrest, hrun, hstream, hleast⟩ := h.root_le he
    obtain ⟨hpop, hpops⟩ := h.popPq he
    have hpop' : MergedInv mi.popPq (· = e) := by simpa only [or_false] using hpop
    have hrem : mi.popPq.remaining < mi.remaining + 1 := by
      rw [hpop.remaining_eq, h.remaining_eq, Nat.lt_succ_iff]
      refine Finset.sum_le_sum fun j _ => ?_
      grind
    obtain ⟨mi₁, hok, hinv, hsub, hse, hcut, hsup⟩ := dropShadowed_spec (mi.remaining + 1) mi.popPq
      hrem hpop' hr (fun j x hj hx => by grind)
    have hrec : mi₁.recs e = some r := by rw [MergedIter.recs, hsub]; exact hr
    have hiter : (mi₁.subiters e).iter = some rest := by rw [hsub]; exact hrest
    have hq : e ∉ mi₁.pq.toList := hinv.out e rfl
    refine .inr ⟨r, mi₁.handOut e rec, by rw [hok, ← hrec]; rfl, ?_, ⟨⟨e, ?_, ?_⟩, fun j => ?_⟩, hsup⟩
    · exact hinv.handOut rec hiter hrun.tail
    · rw [hstream]
      exact mem_cons_self
    · exact fun j x => hleast j x not_false
    rw [MergedIter.stream_handOut hq]
    by_cases hj : j = e
    · rw [hj, hse, hpops, if_pos rfl, hrest, hstream, filter_cons_of_neg (by simp)]
      exact (filter_eq_self.mpr fun x hx => by simpa using hrun.head_lt hx).symm
    · rw [hcut j hj, hpops, if_neg hj]

/-- Advancing the held sub-iterator through the queue. -/
theorem advanceAndTake_spec (rec : Option α) (h : MergedInv mi (· = e))
    (hrest : (mi.subiters e).iter = some rest) (hrun : Run vt.key rest) :
    ((∀ i, mi.stream i = []) ∧ ∃ rec' mi', advanceAndTake mi e rec = .ok (.done, rec', mi')) ∨
    ∃ r mi', advanceAndTake mi e rec = .ok (.ok, some r, mi') ∧ Live mi' ∧ Took mi mi' r ∧
      mi'.suppressDeletions = mi.suppressDeletions := by
  have h' : MergedInv mi fun j => j = e ∨ False := by simpa only [or_false] using h
  obtain ⟨code, mi₁, hadv, hinv, hs, -, hsup, -⟩ :=
    mergedIterAdvanceSubiter_spec h' not_false hrest hrun
  have hinv' : MergedInv { mi₁ with advanceIndex := none } fun _ => False := { hinv with }
  have hs' : ∀ j, ({ mi₁ with advanceIndex := none } : MergedIter ts).stream j = mi.stream j := hs
  have hrun' : advanceAndTake mi e rec = takeEntry { mi₁ with advanceIndex := none } rec := by
    rw [advanceAndTake, hadv]
    rfl
  rw [hrun']
  rcases takeEntry_spec rec hinv' with ⟨hempty, hok⟩ | ⟨r, mi', hok, hlive, htook, hsup'⟩
  · exact .inl ⟨fun i => (hs' i).symm.trans (hempty i), _, _, hok⟩
  refine .inr ⟨r, mi', hok, hlive, ⟨?_, fun j => by rw [htook.cut, hs']⟩, hsup'.trans hsup⟩
  obtain ⟨i, hi, hleast⟩ := htook.least
  exact ⟨i, hs' i ▸ hi, fun j x hx => hleast j x ((hs' j).symm ▸ hx)⟩

/-- `merged_iter_next_entry` without its shortcut. -/
theorem mergedIterNextEntryQueued_spec : NextSpec (@mergedIterNextEntryQueued α vt ts) := by
  intro mi rec h
  unfold mergedIterNextEntryQueued
  unfold Live at h
  split at h
  · rename_i hadv
    rw [hadv]
    exact (takeEntry_spec rec h).imp_left fun ⟨hempty, hok⟩ => ⟨hempty, _, _, hok⟩
  · rename_i e hadv
    obtain ⟨hinv, rest, hrest, hrun⟩ := h
    rw [hadv]
    exact advanceAndTake_spec rec hinv hrest hrun

/-- `merged_iter_next_entry`. With an empty queue all streams but one are empty, so that reading
that one directly takes the least record. -/
theorem mergedIterNextEntry_spec : NextSpec (@mergedIterNextEntry α vt ts) := by
  intro mi rec h
  by_cases hshort : mi.pq.isEmpty = true ∧ mi.advanceIndex ≠ none
  · obtain ⟨hempty, hne⟩ := hshort
    obtain ⟨e, hadv⟩ := Option.ne_none_iff_exists'.mp hne
    have hpq : mi.pq.toList = [] := by simpa using hempty
    have h' := h
    simp only [Live, hadv] at h'
    obtain ⟨hinv, rest, hrest, hrun⟩ := h'
    have hstream : ∀ j, mi.stream j = if j = e then rest else [] := fun j => by
      rw [mi.stream_unqueued (by simp [hpq])]
      split
      · rename_i hj
        rw [hj, hrest, Option.getD_some]
      · rename_i hj
        exact hinv.idle j (by simp [hpq]) hj
    unfold mergedIterNextEntry
    rw [hadv]
    dsimp only
    rw [if_pos hempty, hrest]
    cases rest with
    | nil => exact .inl ⟨fun j => by simp [hstream], _, _, rfl⟩
    | cons r rest =>
      have hset : MergedInv (mi.setSubiter e { iter := some rest, record := (mi.subiters e).record })
          (· = e) :=
        MergedInv.setSubiter (by simpa only [or_self] using hinv) _ (.inl rfl)
      refine .inr ⟨r, _, rfl, ?_, ⟨⟨e, ?_, fun j x hx => ?_⟩, fun j => ?_⟩, rfl⟩
      · unfold Live
        rw [show (mi.setSubiter e _).advanceIndex = some e from hadv]
        exact ⟨hset, rest, by rw [mi.setSubiter_self], hrun.tail⟩
      · simp [hstream]
      · rw [hstream] at hx
        split at hx
        · rename_i hj
          rcases mem_cons.mp hx with rfl | hx
          · exact ⟨le_rfl, fun _ => hj.le⟩
          · exact ⟨(hrun.head_lt hx).le, fun _ => hj.le⟩
        · cases hx
      · rw [MergedIter.stream_setSubiter (hinv.out e rfl), hstream]
        split
        · rw [filter_cons_of_neg (by simp), Option.getD_some]
          exact (filter_eq_self.mpr fun x hx => by simpa using hrun.head_lt hx).symm
        · simp
  · -- otherwise the shortcut is not taken
    have heq : mergedIterNextEntry mi rec = mergedIterNextEntryQueued mi rec := by
      unfold mergedIterNextEntry mergedIterNextEntryQueued
      grind
    rw [heq]
    exact mergedIterNextEntryQueued_spec mi rec h

end Steps

end GitCore.Reftable
