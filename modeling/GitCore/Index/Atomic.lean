import GitCore.Index.Invariant

/-! # Calls of `add_index_entry` that fail

A merged entry replaces the unmerged entries of its name. They are removed before the path is
verified and before the check for conflicts, and either of these can still refuse the entry. So a
call that fails leaves the index as it was if and only if it is not the call of a merged entry that
is refused while there are unmerged entries of its name. -/

namespace GitCore.Index

open List

variable {protection : Protection} {entries : List CacheEntry} {ce : CacheEntry}
  {option : AddOption}

/-! ## Which calls fail -/

/-- There are entries of the name, all of them unmerged, and the new entry is a merged one. -/
def ReplacesUnmerged (ce : CacheEntry) (entries : List CacheEntry) : Prop :=
  ce.stage = mergedStage ∧ (∃ e ∈ entries, e.name = ce.name) ∧ ∀ e ∈ entries, e.key ≠ ce.key

/-- The check for conflicts reports one: there is a file below the new entry, or `has_dir_name` finds
a file at one of its directories. -/
def ConflictReported (ce : CacheEntry) (entries : List CacheEntry) : Prop :=
  ce.remove = false ∧
    ((∃ p ∈ entries, Clash ce p) ∨ (hasDirName ce false (others ce entries)).1 = true)

/-- The checks that follow the removal of unmerged entries refuse the new entry. -/
def Refused (protection : Protection) (ce : CacheEntry) (entries : List CacheEntry)
    (option : AddOption) : Prop :=
  option.justAppend = false ∧
    (verifyPathInternal protection ce.mode ce.name = .pathInvalid ∨
      option.skipDfcheck = false ∧ option.okToReplace = false ∧ ConflictReported ce entries)

/-- The entries that a merged entry leaves are those of other names. -/
theorem mem_others_merged (hstage : ce.stage = mergedStage) {p : CacheEntry} :
    p ∈ others ce entries ↔ p ∈ entries ∧ p.name ≠ ce.name := by
  rw [others, if_pos hstage, mem_filter, decide_eq_true_iff]

/-- Nothing is removed for an entry that replaces none. -/
theorem others_eq_self (h : ¬ ReplacesUnmerged ce entries) (hkey : ∀ e ∈ entries, e.key ≠ ce.key) :
    others ce entries = entries := by
  by_cases hstage : ce.stage = mergedStage
  · rw [others, if_pos hstage]
    refine filter_eq_self.mpr fun e he => decide_eq_true fun hname => ?_
    exact h ⟨hstage, ⟨e, he, hname⟩, hkey⟩
  · rw [others, if_neg hstage]

/-- The entries of the name are fewer afterwards. -/
theorem length_others_lt (h : ReplacesUnmerged ce entries) :
    (others ce entries).length < entries.length := by
  obtain ⟨hstage, ⟨e, he, hname⟩, -⟩ := h
  refine lt_of_le_of_ne others_sublist.length_le fun hlen => ?_
  rw [← others_sublist.eq_of_length hlen] at he
  exact ((mem_others_merged hstage).mp he).2 hname

/-- The check of a merged entry, among the entries of other names. -/
theorem checkFileDirectoryConflict_merged {lo hi hi' : List CacheEntry}
    (hstage : ce.stage = mergedStage) (hasc : Ascending (lo ++ hi))
    (hlo : ∀ a ∈ lo, a.key < ce.key) (hhi : ∀ b ∈ hi, ce.key < b.key)
    (hothers : others ce (lo ++ hi) = lo ++ hi') (hsub : hi'.Sublist hi) :
    (checkFileDirectoryConflict ce false (lo ++ hi') lo.length).1 = true ↔
      ConflictReported ce (lo ++ hi) := by
  have hasc' : Ascending (lo ++ hi') := hothers ▸ hasc.sublist others_sublist
  rw [checkFileDirectoryConflict, ConflictReported, hothers]
  by_cases hremove : ce.remove = true
  · simp [hremove]
  have hlive : ce.remove = false := by simpa using hremove
  have hseen : ¬ (Blocked ce (lo ++ hi') ∧ ∃ p ∈ lo ++ hi', Clash ce p) := by
    rintro ⟨⟨e, he, hname, -⟩, -⟩
    rw [← hothers, mem_others_merged hstage] at he
    exact he.2 hname
  have hexists : (∃ p ∈ lo ++ hi', Clash ce p) ↔ ∃ p ∈ lo ++ hi, Clash ce p := by
    constructor
    · grind
    rintro ⟨p, hp, hclash⟩
    refine ⟨p, ?_, hclash⟩
    rw [← hothers, mem_others_merged hstage]
    exact ⟨hp, conflicts_name_ne (.inl hclash)⟩
  rw [if_neg (by simp [hlive])]
  dsimp only
  rw [hasFileName_removes.unchanged (.inr rfl),
    hasFileName_eq hlive hasc' hlo (fun b hb => hhi b (hsub.subset hb)) hseen]
  simp only [outcome, hlive, decide_eq_decide.mpr hexists, true_and, Bool.or_eq_true,
    decide_eq_true_eq]

/-- **A call that fails** leaves the entries that are not replaced. -/
theorem addIndexEntry_error (h : Ascending entries) {error : AddError}
    (herror : (addIndexEntry protection entries ce option).1 = .error error) :
    (addIndexEntry protection entries ce option).2 = others ce entries ∧
      ∀ e ∈ entries, e.key ≠ ce.key := by
  rw [addIndexEntry] at herror ⊢
  split_ifs at herror ⊢ with happend
  rw [addIndexEntryWithCheck] at herror ⊢
  obtain ⟨lo, e, hi, rfl, hpos, hkey⟩ | ⟨lo, hi, rfl, hpos, hlo, hhi⟩ := entryPos_correct h ce
  · rw [hpos] at herror
    cases herror
  obtain ⟨hi', hkept, hothers, hsub⟩ := removeUnmerged_eq h hlo hhi
  have hkey : ∀ e ∈ lo ++ hi, e.key ≠ ce.key := by
    exact forall_mem_append.mpr ⟨fun e he => (hlo e he).ne, fun e he => (hhi e he).ne'⟩
  refine ⟨?_, hkey⟩
  rw [hpos] at herror ⊢
  dsimp only at herror ⊢
  rw [hkept] at herror ⊢
  rw [hothers]
  split_ifs at herror ⊢ with hadd hpath hskip
  · rfl
  · rfl
  · cases herror
  rw [conflictVerdict] at herror ⊢
  split_ifs at herror ⊢ with hcheck hreplace
  · have hfalse : option.okToReplace = false := by simpa using hreplace
    exact checkFileDirectoryConflict_removes.unchanged (.inr hfalse)
  · split at herror <;> cases herror
  · cases herror

/-- **A merged entry that replaces others** is refused by the checks that follow. -/
theorem addIndexEntry_fails_iff (h : Ascending entries) (hreplaces : ReplacesUnmerged ce entries) :
    (∃ error, (addIndexEntry protection entries ce option).1 = .error error) ↔
      Refused protection ce entries option := by
  have hlt := length_others_lt hreplaces
  obtain ⟨hstage, -, hkey⟩ := hreplaces
  rw [addIndexEntry, Refused]
  by_cases happend : option.justAppend = true
  · simp [happend]
  have happend' : option.justAppend = false := by simpa using happend
  rw [if_neg happend, addIndexEntryWithCheck]
  obtain ⟨lo, e, hi, rfl, hpos, he⟩ | ⟨lo, hi, rfl, hpos, hlo, hhi⟩ := entryPos_correct h ce
  · exact absurd he (hkey e (by simp))
  obtain ⟨hi', hkept, hothers, hsub⟩ := removeUnmerged_eq h hlo hhi
  have hcheck := checkFileDirectoryConflict_merged hstage h hlo hhi hothers hsub
  rw [hothers] at hlt
  have hadd : (option.okToAdd || decide ((lo ++ hi').length < (lo ++ hi).length)) = true := by
    rw [decide_eq_true hlt, Bool.or_true]
  rw [hpos]
  dsimp only
  rw [hkept, hadd, Bool.not_true, if_neg Bool.false_ne_true]
  split
  · rename_i hpath
    exact iff_of_true ⟨_, rfl⟩ ⟨happend', .inl hpath⟩
  rename_i hpath
  split_ifs with hskip
  · simp [finishAdd, hpath, hskip]
  rw [conflictVerdict]
  have hskip' : option.skipDfcheck = false := by simpa using hskip
  by_cases hreplace : option.okToReplace = true
  · -- with the permission to replace, the entry goes in
    simp only [hreplace, Bool.not_true, if_neg Bool.false_ne_true, hpath, false_or,
      Bool.true_eq_false, false_and, and_false, iff_false, not_exists]
    intro error
    split_ifs
    · split <;> simp [finishAdd]
    · simp [finishAdd]
  · have hreplace' : option.okToReplace = false := by simpa using hreplace
    rw [hreplace', ← hcheck]
    split
    · rename_i hfound
      exact iff_of_true ⟨_, rfl⟩ ⟨happend', .inr ⟨hskip', rfl, hfound⟩⟩
    · rename_i hfound
      simp [finishAdd, hpath, hfound]

/-! ## Failed calls and the index -/

/-- What an entry says about the tree: name, stage, mode and object id. -/
def CacheEntry.summary (ce : CacheEntry) : Name × Fin 4 × UInt32 × Oid :=
  (ce.name, ce.stage, ce.mode, ce.oid)

/-- A call that fails leaves the sequence of entries as it was. -/
def KeepsOnFailure (protection : Protection) (entries : List CacheEntry) (ce : CacheEntry)
    (option : AddOption) : Prop :=
  ∀ error, (addIndexEntry protection entries ce option).1 = .error error →
    (addIndexEntry protection entries ce option).2.map CacheEntry.summary =
      entries.map CacheEntry.summary

/-- An index that no search for the name or for one of its directories expands: none of its sparse
directories leads to the name. A full index is one for every name. -/
structure IndexFor (name : Name) where
  entries : List CacheEntry
  ascending : Ascending entries
  unexpanded : ∀ e ∈ entries, e.isSparseDir = true → ¬ e.name <+: name

/-- The file `a` and the sparse directory `b/`, for calls with the name `a/b`. -/
def sparseIndex (stage : Fin 4) : IndexFor [97, 47, 98] where
  entries := [fileEntry [97] stage false, { fileEntry [98, 47] stage false with mode := 0o040000 }]
  ascending := pairwise_pair.mpr (CacheEntry.key_lt.mpr (.inl (show [97] < [98, 47] by decide)))
  unexpanded := by simp [fileEntry, CacheEntry.isSparseDir, sIfdir]

/-- A symbolic link in the index. -/
def linkEntry (name : Name) (stage : Fin 4) : CacheEntry :=
  { fileEntry name stage false with mode := 0o120000 }

/-- `.gitmodules` -/
def gitmodulesName : Name := [46, 103, 105, 116] ++ modulesText

end GitCore.Index
