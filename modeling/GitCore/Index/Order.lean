import GitCore.Index.AddEntry

/-! # The order of the index

The entries of an index ascend by name and stage. In such an index the search for an entry finds it,
or the place between the entries before and the entries after it. -/

namespace GitCore.Index

open List

/-- What the entries are ordered by: the name, then the stage. -/
abbrev Key := Name ×ₗ Fin 4

/-- The place of an entry in the order. -/
def CacheEntry.key (ce : CacheEntry) : Key := toLex (ce.name, ce.stage)

/-- The entries ascend strictly by name and stage. -/
def Ascending (entries : List CacheEntry) : Prop := entries.Pairwise fun a b => a.key < b.key

variable {a b : CacheEntry}

theorem CacheEntry.key_lt : a.key < b.key ↔ a.name < b.name ∨ a.name = b.name ∧ a.stage < b.stage :=
  Prod.Lex.toLex_lt_toLex

theorem CacheEntry.key_eq : a.key = b.key ↔ a.name = b.name ∧ a.stage = b.stage := by
  simp [CacheEntry.key]

/-- An entry that is not after another one does not have a greater name. -/
theorem CacheEntry.name_le (h : a.key < b.key) : a.name ≤ b.name := by
  rcases CacheEntry.key_lt.mp h with hlt | ⟨heq, -⟩
  · exact hlt.le
  · exact heq.le

section Ascending

variable {entries lo hi : List CacheEntry} {ce e : CacheEntry}

theorem Ascending.sublist (h : Ascending entries) (hsub : lo.Sublist entries) : Ascending lo :=
  List.Pairwise.sublist hsub h

theorem Ascending.lt_of_split (h : Ascending (lo ++ hi)) (ha : a ∈ lo)
    (hb : b ∈ hi) : a.key < b.key :=
  (pairwise_append.mp h).2.2 a ha b hb

/-- An entry can be put between those before and those after it. -/
theorem Ascending.insert (h : Ascending (lo ++ hi)) (hlo : ∀ a ∈ lo, a.key < ce.key)
    (hhi : ∀ b ∈ hi, ce.key < b.key) : Ascending (lo ++ ce :: hi) := by
  obtain ⟨hasclo, haschi, hcross⟩ := pairwise_append.mp h
  refine pairwise_append.mpr ⟨hasclo, pairwise_cons.mpr ⟨hhi, haschi⟩, ?_⟩
  exact fun a ha => forall_mem_cons.mpr ⟨hlo a ha, hcross a ha⟩

/-- An entry can be replaced by one of the same name and stage. -/
theorem Ascending.replace (h : Ascending (lo ++ e :: hi)) (hkey : e.key = ce.key) :
    Ascending (lo ++ ce :: hi) := by
  simp only [Ascending, pairwise_append, pairwise_cons, forall_mem_cons, hkey] at h ⊢
  exact h

/-- There is one entry of a name and stage. -/
theorem Ascending.eq_of_key (h : Ascending entries) (ha : a ∈ entries)
    (hb : b ∈ entries) (hkey : a.key = b.key) : a = b := by
  by_contra hne
  obtain ⟨i, hi, rfl⟩ := mem_iff_getElem.mp ha
  obtain ⟨j, hj, rfl⟩ := mem_iff_getElem.mp hb
  rcases Nat.lt_trichotomy i j with hlt | rfl | hgt
  · exact (pairwise_iff_getElem.mp h i j hi hj hlt).ne hkey
  · exact hne rfl
  · exact (pairwise_iff_getElem.mp h j i hj hi hgt).ne' hkey

end Ascending

/-! ## The search -/

section Search

variable {entries : List CacheEntry} {name : Name} {stage : Fin 4}

/-- The result of a search is right: the entry is there, or this is the place for it. -/
def PosCorrect (entries : List CacheEntry) (key : Key) (pos : Nat ⊕ Nat) : Prop :=
  (∃ lo e hi, entries = lo ++ e :: hi ∧ pos = .inl lo.length ∧ e.key = key) ∨
    ∃ lo hi, entries = lo ++ hi ∧ pos = .inr lo.length ∧ (∀ a ∈ lo, a.key < key) ∧
      ∀ b ∈ hi, key < b.key

variable {ce : CacheEntry}

theorem cacheNameStageCompare_eq_lt :
    cacheNameStageCompare name stage ce.name ce.stage = .lt ↔ toLex (name, stage) < ce.key := by
  rw [cacheNameStageCompare, Ordering.then_eq_lt, nameCompare_eq_lt, nameCompare_eq_eq,
    CacheEntry.key, Prod.Lex.toLex_lt_toLex, cmp_eq_lt_iff, Fin.val_fin_lt]

theorem cacheNameStageCompare_eq_gt :
    cacheNameStageCompare name stage ce.name ce.stage = .gt ↔ ce.key < toLex (name, stage) := by
  rw [cacheNameStageCompare, Ordering.then_eq_gt, nameCompare_eq_gt, nameCompare_eq_eq,
    CacheEntry.key, Prod.Lex.toLex_lt_toLex, cmp_eq_gt_iff, Fin.val_fin_lt, eq_comm]

theorem cacheNameStageCompare_eq_eq :
    cacheNameStageCompare name stage ce.name ce.stage = .eq ↔ ce.key = toLex (name, stage) := by
  rw [cacheNameStageCompare, Ordering.then_eq_eq, nameCompare_eq_eq, cmp_eq_eq_iff, Fin.val_inj,
    CacheEntry.key, toLex_inj, Prod.mk.injEq, @eq_comm _ name, @eq_comm _ stage]

/-- **The search in an ascending index is right.** -/
theorem indexNameStagePos_correct (h : Ascending entries) (name : Name) (stage : Fin 4) :
    PosCorrect entries (toLex (name, stage)) (indexNameStagePos entries name stage) := by
  have hsorted : entries.Pairwise fun a b =>
      cacheNameStageCompare name stage a.name a.stage ≠ .gt →
        cacheNameStageCompare name stage b.name b.stage = .lt := by
    refine h.imp ?_
    intro a b hab hne
    rw [Ne, cacheNameStageCompare_eq_gt, not_lt] at hne
    exact cacheNameStageCompare_eq_lt.mpr (hne.trans_lt hab)
  rcases binarySearch_spec hsorted with ⟨p, e, hpos, hget, heq⟩ | ⟨p, hp, hpos, hlow, hhigh⟩
  · obtain ⟨hlt, rfl⟩ := List.getElem?_eq_some_iff.mp hget
    refine .inl ⟨entries.take p, entries[p], entries.drop (p + 1), ?_, ?_, ?_⟩
    · rw [getElem_cons_drop, take_append_drop]
    · rw [indexNameStagePos, hpos, length_take, Nat.min_eq_left hlt.le]
    · exact cacheNameStageCompare_eq_eq.mp heq
  · refine .inr ⟨entries.take p, entries.drop p, ?_, ?_, ?_, ?_⟩
    · rw [take_append_drop]
    · rw [indexNameStagePos, hpos, length_take, Nat.min_eq_left hp]
    · exact fun a ha => cacheNameStageCompare_eq_gt.mp (hlow a ha)
    · exact fun b hb => cacheNameStageCompare_eq_lt.mp (hhigh b hb)

/-- Nothing comes after the last entry of an ascending index. -/
theorem Ascending.key_le_last (h : Ascending entries) {last : CacheEntry}
    (hlast : entries.getLast? = some last) (ha : a ∈ entries) : a.key ≤ last.key := by
  obtain ⟨lo, rfl⟩ := getLast?_eq_some_iff.mp hlast
  rcases mem_append.mp ha with ha | ha
  · exact (h.lt_of_split ha (mem_singleton_self last)).le
  · rw [mem_singleton.mp ha]

/-- **The position of a new entry is right**, also if the search is skipped because the entry comes
after the last one. -/
theorem entryPos_correct (h : Ascending entries) (ce : CacheEntry) :
    PosCorrect entries ce.key (entryPos entries ce) := by
  rw [entryPos]
  split
  · exact indexNameStagePos_correct h ce.name ce.stage
  next last hlast =>
  split
  · next hgt =>
    -- all entries come before the new one
    refine .inr ⟨entries, [], (append_nil entries).symm, rfl, fun a ha => ?_, ?_⟩
    · refine (h.key_le_last hlast ha).trans_lt ?_
      exact CacheEntry.key_lt.mpr (.inl (nameCompare_eq_gt.mp hgt))
    · simp
  · exact indexNameStagePos_correct h ce.name ce.stage

end Search

end GitCore.Index
