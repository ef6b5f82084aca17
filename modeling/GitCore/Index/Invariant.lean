import GitCore.Index.Conflicts
import GitCore.Lib.SortedList

/-! # The invariant of the index over whole runs

A run begins with an empty index and adds entries, with or without the permission to replace others,
or removes them. The order of the entries always holds. That no path is a file and a directory
holds as long as every conflict of a new entry is noticed: the check misses some in an index with
unmerged entries or with entries that are marked for removal, and an entry that takes the place of a
removed one is not checked at all. -/

namespace GitCore.Index

open List

variable {protection : Protection} {entries lo hi : List CacheEntry} {ce : CacheEntry}
  {okToReplace newOnly : Bool}

/-- The entries that stay when a new one is put in: a merged entry replaces the unmerged ones. -/
def others (ce : CacheEntry) (entries : List CacheEntry) : List CacheEntry :=
  if ce.stage = mergedStage then entries.filter fun p => p.name ≠ ce.name else entries

theorem others_sublist : (others ce entries).Sublist entries := by
  rw [others]
  split
  · exact filter_sublist
  · exact List.Sublist.refl entries

theorem conflicts_name_ne {p : CacheEntry} (h : Conflicts ce p) : p.name ≠ ce.name := by
  intro hname
  rcases h with hclash | hclash
  · exact hclash.below.lt.ne' hname
  · exact hclash.below.lt.ne hname

/-- The entries that are replaced do not conflict with the new one. -/
theorem exists_conflicts_others :
    (∃ p ∈ others ce entries, Conflicts ce p) ↔ ∃ p ∈ entries, Conflicts ce p := by
  constructor
  · rintro ⟨p, hp, hconf⟩
    exact ⟨p, others_sublist.subset hp, hconf⟩
  rintro ⟨p, hp, hconf⟩
  refine ⟨p, ?_, hconf⟩
  rw [others]
  split
  · exact mem_filter.mpr ⟨hp, decide_eq_true (conflicts_name_ne hconf)⟩
  · exact hp

theorem not_lt_mergedStage (stage : Fin 4) : ¬ stage < mergedStage := Nat.not_lt_zero _

/-- The entries of the name stand first among those after it. -/
theorem dropWhile_same_name (hasc : Ascending hi) (hhi : ∀ b ∈ hi, ce.key < b.key) :
    (hi.dropWhile fun p => p.name = ce.name) = hi.filter fun p => p.name ≠ ce.name := by
  -- a name before an equal one is between the two
  have hinitial : Initial (fun p : CacheEntry => decide (p.name = ce.name)) hi := by
    refine hasc.imp_of_mem fun {a b} ha _ hab hb => decide_eq_true (le_antisymm ?_ ?_)
    · exact of_decide_eq_true hb ▸ CacheEntry.name_le hab
    · exact CacheEntry.name_le (hhi a ha)
  simpa only [← decide_not] using hinitial.takeWhile_eq.2

/-- The unmerged entries are removed at the position of the new one. -/
theorem removeUnmerged_eq (hasc : Ascending (lo ++ hi)) (hlo : ∀ a ∈ lo, a.key < ce.key)
    (hhi : ∀ b ∈ hi, ce.key < b.key) :
    ∃ hi', removeUnmerged (lo ++ hi) ce lo.length = lo ++ hi' ∧ others ce (lo ++ hi) = lo ++ hi' ∧
      hi'.Sublist hi := by
  rw [removeUnmerged, others]
  split
  · next hstage =>
    refine ⟨hi.filter fun p => p.name ≠ ce.name, ?_, ?_, filter_sublist⟩
    · rw [take_left, drop_left, dropWhile_same_name (pairwise_append.mp hasc).2.1 hhi]
    rw [filter_append]
    refine congrArg (· ++ _) (filter_eq_self.mpr fun a ha => decide_eq_true ?_)
    -- nothing of this name comes before the merged entry
    intro hname
    rcases CacheEntry.key_lt.mp (hlo a ha) with hlt | ⟨-, hlt⟩
    · exact hlt.ne hname
    · exact not_lt_mergedStage _ (hstage ▸ hlt)
  · exact ⟨hi, rfl, rfl, List.Sublist.refl hi⟩

theorem insertEntry_append : insertEntry (lo ++ hi) lo.length ce = lo ++ ce :: hi := by
  rw [insertEntry, take_left, drop_left]

/-- A new entry at its place keeps the invariant if it has no conflicts. -/
theorem consistent_insert_iff (h : Consistent (lo ++ hi)) (hlo : ∀ a ∈ lo, a.key < ce.key)
    (hhi : ∀ b ∈ hi, ce.key < b.key) :
    Consistent (lo ++ ce :: hi) ↔ ¬ ∃ p ∈ lo ++ hi, Conflicts ce p := by
  constructor
  · rintro hnew ⟨p, hp, hconf⟩
    exact (noClash_insert_iff h.noClash).mp hnew.noClash p hp hconf
  intro hnone
  refine ⟨h.ascending.insert hlo hhi, (noClash_insert_iff h.noClash).mpr ?_⟩
  intro p hp hconf
  exact hnone ⟨p, hp, hconf⟩

/-! ## The order

The searches only remove entries, and they say so; the position is then computed again. So the order
does not depend on what they find. -/

/-- The result of a search in which some entries may have been removed: if it found nothing, or must
not replace anything, it left the entries as they are. -/
structure Removes (okToReplace : Bool) (entries : List CacheEntry)
    (result : Bool × List CacheEntry) : Prop where
  sublist : result.2.Sublist entries
  unchanged : result.1 = false ∨ okToReplace = false → result.2 = entries

theorem Removes.keep (flag : Bool) (entries : List CacheEntry) :
    Removes okToReplace entries (flag, entries) :=
  ⟨List.Sublist.refl entries, fun _ => rfl⟩

theorem fileNameLoop_removes :
    Removes okToReplace entries (fileNameLoop ce okToReplace entries) := by
  induction entries with
  | nil => exact Removes.keep false []
  | cons p rest ih =>
    rw [fileNameLoop]
    split_ifs with _ _ _ hreplace
    · exact Removes.keep false _
    · exact Removes.keep false _
    · exact ⟨ih.sublist.cons_cons p, fun h => congrArg (p :: ·) (ih.unchanged h)⟩
    · exact ⟨ih.sublist.cons p, fun h => by simp [hreplace] at h⟩
    · exact Removes.keep true _

theorem hasFileName_removes {pos : Nat} :
    Removes okToReplace entries (hasFileName ce okToReplace entries pos) := by
  have hloop := @fileNameLoop_removes (entries.drop pos) ce okToReplace
  constructor
  · have := (List.Sublist.refl (entries.take pos)).append hloop.sublist
    rwa [take_append_drop] at this
  · intro h
    rw [hasFileName]
    rw [hloop.unchanged h, take_append_drop]

/-- Once `retval` is set it stays set. -/
theorem dirNameLoop_removes {fuel n : Nat} {retval : Bool} :
    Removes okToReplace entries (dirNameLoop ce okToReplace fuel n retval entries) ∧
      (retval = true → (dirNameLoop ce okToReplace fuel n retval entries).1 = true) := by
  induction fuel generalizing n retval entries with
  | zero => exact ⟨Removes.keep retval entries, id⟩
  | succ fuel ih =>
    rw [dirNameLoop]
    split
    · exact ⟨Removes.keep retval entries, id⟩
    next len hslash =>
    dsimp only
    split
    · next pos hpos =>
      split_ifs with _ _ hreplace
      · exact ⟨Removes.keep retval entries, id⟩
      · exact ih
      · obtain ⟨hrest, hflag⟩ := @ih (removeIndexEntryAt entries pos) len true
        refine ⟨⟨hrest.sublist.trans (eraseIdx_sublist entries pos), fun h => ?_⟩,
          fun _ => hflag rfl⟩
        rw [hflag rfl, hreplace] at h
        simp at h
      · exact ⟨Removes.keep true entries, fun _ => rfl⟩
    · split_ifs
      · exact ⟨Removes.keep retval entries, id⟩
      · exact ih

theorem hasDirName_removes : Removes okToReplace entries (hasDirName ce okToReplace entries) := by
  rw [hasDirName]
  split
  · exact Removes.keep false entries
  split_ifs
  · exact Removes.keep false entries
  · exact dirNameLoop_removes.1

theorem checkFileDirectoryConflict_removes {pos : Nat} :
    Removes okToReplace entries (checkFileDirectoryConflict ce okToReplace entries pos) := by
  rw [checkFileDirectoryConflict]
  split_ifs
  · exact Removes.keep false entries
  have hfile := @hasFileName_removes entries ce okToReplace pos
  have hdir := @hasDirName_removes (hasFileName ce okToReplace entries pos).2 ce okToReplace
  refine ⟨hdir.sublist.trans hfile.sublist, fun h => ?_⟩
  rw [Bool.or_eq_false_iff, or_comm, or_and_left] at h
  exact (hdir.unchanged h.2.symm).trans (hfile.unchanged h.1.symm)

/-! ## One call -/

/-- The options of the calls: the entry may be added, and the check is made. -/
def addOption (okToReplace newOnly : Bool) : AddOption where
  okToAdd := true
  okToReplace := okToReplace
  skipDfcheck := false
  justAppend := false
  newOnly := newOnly

/-- **The condition on a new entry.** If it has a conflict with an entry of the index, then it does
not take the place of an entry of its name and stage, and the check notices the conflict. -/
def Noticed (ce : CacheEntry) (newOnly : Bool) (entries : List CacheEntry) : Prop :=
  (∃ p ∈ entries, Conflicts ce p) →
    ((∃ e ∈ entries, e.key = ce.key) → newOnly = true) ∧
      ((¬ ∃ e ∈ entries, e.key = ce.key) → ¬ Missed ce (others ce entries))

/-- What a call does with a new entry after the check. -/
def insertChecked (ce : CacheEntry) (okToReplace : Bool) (pos : Nat)
    (check : Bool × List CacheEntry) : List CacheEntry :=
  (finishAdd ce (conflictVerdict ce okToReplace pos check)).2

theorem insertChecked_false (pos : Nat) (entries : List CacheEntry) :
    insertChecked ce okToReplace pos (false, entries) = insertEntry entries pos ce := rfl

theorem addIndexEntry_of_found {pos : Nat} (hpos : entryPos entries ce = .inl pos) :
    (addIndexEntry protection entries ce (addOption okToReplace newOnly)).2 =
      if newOnly then entries else entries.set pos ce := by
  rw [addIndexEntry, addIndexEntryWithCheck, hpos]
  rfl

theorem addIndexEntry_of_absent {pos : Nat} (hpos : entryPos entries ce = .inr pos)
    (hpath : verifyPath protection ce.mode ce.name = true) :
    (addIndexEntry protection entries ce (addOption okToReplace newOnly)).2 =
      insertChecked ce okToReplace pos
        (checkFileDirectoryConflict ce okToReplace (removeUnmerged entries ce pos) pos) := by
  have hvalid : verifyPathInternal protection ce.mode ce.name ≠ .pathInvalid := by
    rw [of_decide_eq_true hpath]
    exact VerifyPathResult.noConfusion
  rw [addIndexEntry, addIndexEntryWithCheck, hpos, insertChecked]
  simp only [addOption, Bool.true_or, Bool.not_true, Bool.false_eq_true, if_false, if_neg hvalid]

/-- An entry of the same name and stage has the conflicts of the new one, whether it is marked for
removal or not. -/
theorem consistent_replace_iff {lo hi : List CacheEntry} {e : CacheEntry}
    (h : Consistent (lo ++ e :: hi)) (hkey : e.key = ce.key) :
    Consistent (lo ++ ce :: hi) ↔ ¬ ∃ p ∈ lo ++ e :: hi, Conflicts ce p := by
  have hsub : (lo ++ hi).Sublist (lo ++ e :: hi) :=
    (List.Sublist.refl lo).append (sublist_cons_self e hi)
  have hsame : ¬ Conflicts ce e := fun hconf => conflicts_name_ne hconf (CacheEntry.key_eq.mp hkey).1
  obtain ⟨-, htail, hcross⟩ := pairwise_append.mp h.ascending
  rw [consistent_insert_iff (h.sublist hsub)]
  · refine not_congr ⟨?_, ?_⟩
    · grind
    grind
  · grind
  · intro b hb
    rw [← hkey]
    exact (pairwise_cons.mp htail).1 b hb

/-- After any search the new entry gets to its place. -/
theorem ascending_insertChecked {lo hi : List CacheEntry} (h : Ascending (lo ++ hi))
    (hlo : ∀ a ∈ lo, a.key < ce.key) (hhi : ∀ b ∈ hi, ce.key < b.key)
    {check : Bool × List CacheEntry} (hcheck : Removes okToReplace (lo ++ hi) check) :
    Ascending (insertChecked ce okToReplace lo.length check) := by
  obtain ⟨flag, kept⟩ := check
  cases flag with
  | false =>
    obtain rfl : kept = lo ++ hi := hcheck.unchanged (.inl rfl)
    rw [insertChecked_false, insertEntry_append]
    exact h.insert hlo hhi
  | true =>
    have hkept : Ascending kept := h.sublist hcheck.sublist
    rw [insertChecked, conflictVerdict, if_pos rfl]
    cases okToReplace with
    | false => exact hkept
    | true =>
      simp only [Bool.not_true, Bool.false_eq_true, if_false]
      rcases indexNameStagePos_correct hkept ce.name ce.stage with
        ⟨lo', e, hi', heq, hpos, -⟩ | ⟨lo', hi', heq, hpos, hlo', hhi'⟩
      · rw [hpos]
        exact hkept
      rw [hpos]
      dsimp only [finishAdd]
      rw [heq, insertEntry_append]
      exact Ascending.insert (heq ▸ hkept) hlo' hhi'

/-- **A call of `add_index_entry` keeps the order**, whatever the check finds. -/
theorem addIndexEntry_ascending (h : Ascending entries)
    (hpath : verifyPath protection ce.mode ce.name = true) :
    Ascending (addIndexEntry protection entries ce (addOption okToReplace newOnly)).2 := by
  rcases entryPos_correct h ce with ⟨lo, e, hi, rfl, hpos, hkey⟩ | ⟨lo, hi, rfl, hpos, hlo, hhi⟩
  · rw [addIndexEntry_of_found hpos]
    cases newOnly with
    | true => exact h
    | false =>
      rw [if_neg Bool.false_ne_true, set_append_right _ _ le_rfl, Nat.sub_self, set_cons_zero]
      exact h.replace hkey
  · obtain ⟨hi', hremove, -, hsub⟩ := removeUnmerged_eq h hlo hhi
    rw [addIndexEntry_of_absent hpos hpath, hremove]
    refine ascending_insertChecked (h.sublist ((List.Sublist.refl lo).append hsub)) hlo ?_
      checkFileDirectoryConflict_removes
    exact fun b hb => hhi b (hsub.subset hb)

/-- After the check nothing is left that conflicts with the new entry, or the entry is refused. -/
theorem consistent_insertChecked {lo hi : List CacheEntry} (h : Consistent (lo ++ hi))
    (hlo : ∀ a ∈ lo, a.key < ce.key) (hhi : ∀ b ∈ hi, ce.key < b.key) :
    Consistent (insertChecked ce okToReplace lo.length
      (outcome okToReplace (Conflicts ce) (lo ++ hi))) := by
  by_cases hconf : ∃ p ∈ lo ++ hi, Conflicts ce p
  · rw [outcome, decide_eq_true hconf, insertChecked, conflictVerdict, if_pos rfl]
    cases okToReplace with
    | false => exact h
    | true =>
      simp only [Bool.not_true, Bool.false_eq_true, if_false, if_true]
      have hkept : Consistent ((lo ++ hi).filter fun p => ¬ Conflicts ce p) :=
        h.sublist filter_sublist
      rcases indexNameStagePos_correct hkept.ascending ce.name ce.stage with
        ⟨lo', e, hi', heq, hpos, -⟩ | ⟨lo', hi', heq, hpos, hlo', hhi'⟩
      · rw [hpos]
        exact hkept
      rw [hpos]
      dsimp only [finishAdd]
      rw [heq, insertEntry_append]
      refine (consistent_insert_iff (heq ▸ hkept) hlo' hhi').mpr ?_
      grind
  · rw [outcome_of_none fun p hp hpconf => hconf ⟨p, hp, hpconf⟩, insertChecked_false,
      insertEntry_append]
    exact (consistent_insert_iff h hlo hhi).mpr hconf

/-- **One call of `add_index_entry`** keeps the invariant if and only if the conflicts of the new
entry are noticed. -/
theorem addIndexEntry_consistent_iff (h : Consistent entries)
    (hpath : verifyPath protection ce.mode ce.name = true) :
    Consistent (addIndexEntry protection entries ce (addOption okToReplace newOnly)).2 ↔
      Noticed ce newOnly entries := by
  rcases entryPos_correct h.ascending ce with
    ⟨lo, e, hi, rfl, hpos, hkey⟩ | ⟨lo, hi, rfl, hpos, hlo, hhi⟩
  · have hfound : ∃ e' ∈ lo ++ e :: hi, e'.key = ce.key := ⟨e, by simp, hkey⟩
    rw [addIndexEntry_of_found hpos, Noticed]
    cases newOnly with
    | true => exact iff_of_true h fun _ => ⟨fun _ => rfl, fun habsent => absurd hfound habsent⟩
    | false =>
      rw [if_neg Bool.false_ne_true, set_append_right _ _ le_rfl, Nat.sub_self, set_cons_zero,
        consistent_replace_iff h hkey]
      exact ⟨fun hnone hconf => absurd hconf hnone,
        fun hnot hconf => Bool.false_ne_true ((hnot hconf).1 hfound)⟩
  · have habsent : ¬ ∃ e ∈ lo ++ hi, e.key = ce.key := by grind
    obtain ⟨hi', hremove, hothers, hsub⟩ := removeUnmerged_eq h.ascending hlo hhi
    have hkept : Consistent (lo ++ hi') := h.sublist ((List.Sublist.refl lo).append hsub)
    have hhi' : ∀ b ∈ hi', ce.key < b.key := fun b hb => hhi b (hsub.subset hb)
    have hexists := @exists_conflicts_others (lo ++ hi) ce
    rw [addIndexEntry_of_absent hpos hpath, hremove, Noticed, ← hexists, hothers]
    cases hlive : ce.remove with
    | true =>
      -- an entry that is marked for removal has no conflicts
      have hnone : ¬ ∃ p ∈ lo ++ hi', Conflicts ce p := by
        rintro ⟨p, -, hclash | hclash⟩
        · exact absurd (hclash.left.symm.trans hlive) Bool.false_ne_true
        · exact absurd (hclash.right.symm.trans hlive) Bool.false_ne_true
      have hcheck : checkFileDirectoryConflict ce okToReplace (lo ++ hi') lo.length =
          (false, lo ++ hi') := by
        rw [checkFileDirectoryConflict, if_pos hlive]
      rw [hcheck, insertChecked_false, insertEntry_append]
      exact iff_of_true ((consistent_insert_iff hkept hlo hhi').mpr hnone)
        fun hconf => absurd hconf hnone
    | false =>
      by_cases hmissed : Missed ce (lo ++ hi')
      · have hconf : ∃ p ∈ lo ++ hi', Conflicts ce p := by
          rcases hmissed with ⟨-, p, hp, hclash⟩ | ⟨-, p, hp, hclash⟩
          · exact ⟨p, hp, .inl hclash⟩
          · exact ⟨p, hp, .inr hclash⟩
        rw [checkFileDirectoryConflict_of_missed hlive hkept hlo hhi' hmissed, insertChecked_false,
          insertEntry_append, consistent_insert_iff hkept hlo hhi']
        exact iff_of_false (not_not.mpr hconf) fun hnot => (hnot hconf).2 habsent hmissed
      · rw [checkFileDirectoryConflict_eq hlive hkept hlo hhi' hmissed]
        exact iff_of_true (consistent_insertChecked hkept hlo hhi')
          fun _ => ⟨fun hfound => absurd hfound habsent, fun _ => hmissed⟩

/-! ## Runs -/

/-- A call that changes the index. -/
inductive Op
  /-- `add_index_entry` with `ADD_CACHE_OK_TO_ADD` -/
  | add (ce : CacheEntry) (okToReplace newOnly : Bool)
  /-- `remove_index_entry_at` -/
  | removeAt (pos : Nat)

section Run

variable (protection)

/-- The index after a call. -/
def step (entries : List CacheEntry) : Op → List CacheEntry
  | .add ce okToReplace newOnly =>
    (addIndexEntry protection entries ce (addOption okToReplace newOnly)).2
  | .removeAt pos => removeIndexEntryAt entries pos

/-- The index after some calls, from an empty one. -/
def run (ops : List Op) : List CacheEntry := ops.foldl (step protection) []

/-- The names of new entries are accepted by `verify_path`, and they are not sparse directories. -/
def Op.Accepted : Op → Prop
  | .add ce _ _ => verifyPath protection ce.mode ce.name = true ∧ ce.isSparseDir = false
  | .removeAt _ => True

instance : DecidablePred (Op.Accepted protection)
  | .add ce _ _ =>
    inferInstanceAs (Decidable (verifyPath protection ce.mode ce.name = true ∧ ce.isSparseDir = false))
  | .removeAt _ => isTrue trivial

/-- The conflicts of a new entry are noticed. -/
def Op.Noticed (entries : List CacheEntry) : Op → Prop
  | .add ce _ newOnly => Index.Noticed ce newOnly entries
  | .removeAt _ => True

theorem step_consistent_iff {entries : List CacheEntry} (h : Consistent entries) {op : Op}
    (hop : op.Accepted protection) :
    Consistent (step protection entries op) ↔ op.Noticed entries := by
  cases op with
  | add ce okToReplace newOnly => exact addIndexEntry_consistent_iff h hop.1
  | removeAt pos => exact iff_of_true (h.sublist (eraseIdx_sublist entries pos)) trivial

theorem run_concat (ops : List Op) (op : Op) :
    run protection (ops ++ [op]) = step protection (run protection ops) op := by
  rw [run, foldl_append]
  rfl

/-- **The order holds at the end of every run**, also when a conflict was missed. -/
theorem run_ascending (ops : List { op : Op // op.Accepted protection }) :
    Ascending (run protection (ops.map (·.1))) := by
  induction ops using List.reverseRecOn with
  | nil => exact List.Pairwise.nil
  | append_singleton ops op ih =>
    obtain ⟨op, hop⟩ := op
    rw [map_append, map_singleton, run_concat]
    cases op with
    | add ce okToReplace newOnly => exact addIndexEntry_ascending ih hop.1
    | removeAt pos => exact ih.sublist (eraseIdx_sublist _ pos)

/-- **Lookups are exact after every run.** -/
theorem run_indexNameStagePos (ops : List { op : Op // op.Accepted protection }) (name : Name)
    (stage : Fin 4) :
    PosCorrect (run protection (ops.map (·.1))) (toLex (name, stage))
      (indexNameStagePos (run protection (ops.map (·.1))) name stage) :=
  indexNameStagePos_correct (run_ascending protection ops) name stage

/-- **The index keeps its order and has no path that is a file and a directory, at all times of a
run, if and only if at every call the conflicts of the new entry are noticed.** -/
theorem run_consistent_iff (ops : List Op) (hops : ∀ op ∈ ops, op.Accepted protection) :
    (∀ done, done <+: ops → Consistent (run protection done)) ↔
      ∀ done op, done ++ [op] <+: ops → op.Noticed (run protection done) := by
  constructor
  · intro h done op hdone
    have hmem : op ∈ ops := hdone.subset (by simp)
    have hbefore := h done ((prefix_append done [op]).trans hdone)
    rw [← step_consistent_iff protection hbefore (hops op hmem), ← run_concat]
    exact h (done ++ [op]) hdone
  · intro h done
    induction done using List.reverseRecOn with
    | nil => exact fun _ => ⟨.nil, forall_mem_nil _⟩
    | append_singleton done op ih =>
      intro hdone
      have hmem : op ∈ ops := hdone.subset (by simp)
      have hbefore := ih ((prefix_append done [op]).trans hdone)
      rw [run_concat, step_consistent_iff protection hbefore (hops op hmem)]
      exact h done op hdone

end Run

/-! ## Conflicts that are not noticed -/

/-- A regular file in the index. -/
def fileEntry (name : Name) (stage : Fin 4) (remove : Bool) : CacheEntry where
  statData := ⟨⟨0, 0⟩, ⟨0, 0⟩, 0, 0, 0, 0, 0⟩
  mode := 0o100644
  oid := []
  name := name
  stage := stage
  valid := false
  intentToAdd := false
  skipWorktree := false
  remove := remove
  stripName := false

/-- Neither `core.protectHFS` nor `core.protectNTFS` is set. -/
def unprotected : Protection := ⟨false, false, fun _ => false, fun _ => false, fun _ => false, fun _ => false⟩

/-- `a/b` at stage 1, then `a` at stage 2 and at stage 1. -/
def sameNameRun : List Op :=
  [.add (fileEntry [97, 47, 98] 1 false) false false, .add (fileEntry [97] 2 false) false false,
    .add (fileEntry [97] 1 false) false false]

/-- `a` at stage 1 and `a/b` at stage 2, then `a/c` at stage 1. -/
def pastEndRun : List Op :=
  [.add (fileEntry [97] 1 false) false false, .add (fileEntry [97, 47, 98] 2 false) false false,
    .add (fileEntry [97, 47, 99] 1 false) false false]

/-- `a` that is marked for removal and `a/b`, then `a` again. -/
def revivedRun : List Op :=
  [.add (fileEntry [97] 0 true) false false, .add (fileEntry [97, 47, 98] 0 false) false false,
    .add (fileEntry [97] 0 false) false false]

/-- Each of the three runs ends with a path that is a file and a directory of one stage. -/
theorem run_consistent_fails :
    (∀ op ∈ sameNameRun ++ pastEndRun ++ revivedRun, op.Accepted unprotected) ∧
    (∃ a ∈ run unprotected sameNameRun, ∃ b ∈ run unprotected sameNameRun, Clash a b) ∧
      (∃ a ∈ run unprotected pastEndRun, ∃ b ∈ run unprotected pastEndRun, Clash a b) ∧
      ∃ a ∈ run unprotected revivedRun, ∃ b ∈ run unprotected revivedRun, Clash a b := by
  decide +kernel

/-- The theorem at the run that adds `a` and is then refused `a/b`. -/
theorem run_consistent_iff_refused :
    (∀ done, done <+: [Op.add (fileEntry [97] 0 false) false false,
        .add (fileEntry [97, 47, 98] 0 false) false false] → Consistent (run unprotected done)) ↔
      ∀ done op, done ++ [op] <+: [Op.add (fileEntry [97] 0 false) false false,
        .add (fileEntry [97, 47, 98] 0 false) false false] → op.Noticed (run unprotected done) := by
  apply run_consistent_iff unprotected
  decide +kernel

end GitCore.Index
