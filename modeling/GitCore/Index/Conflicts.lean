import GitCore.Index.Order
import GitCore.Lib.PrefixOrder

/-! # The search for conflicts

A path cannot be a file and a directory at once. The entries that forbid a new one are the files
below it and the files at its directories. `has_file_name` finds the former and `has_dir_name` the
latter in an index that has no conflicts yet, each with one exception:

* `has_file_name` does not get past an entry of the same name at a later stage;
* `has_dir_name` gives up if the name comes after the last one in the index and differs from it at a
  byte that is not a slash. -/

namespace GitCore.Index

open List

variable {name : Name} {ce : CacheEntry} {entries lo hi : List CacheEntry} {okToReplace : Bool}

/-- The file is below the directory. -/
def Below (dir file : Name) : Prop := dir ++ [47] <+: file

/-- Both entries are files of one stage that stay in the index, and the second is below the
first. -/
@[mk_iff]
structure Clash (a b : CacheEntry) : Prop where
  stage : a.stage = b.stage
  left : a.remove = false
  right : b.remove = false
  below : Below a.name b.name

/-- **The invariant of the index**: it is ordered, and no path is a file and a directory. -/
structure Consistent (entries : List CacheEntry) : Prop where
  ascending : Ascending entries
  noClash : ∀ a ∈ entries, ∀ b ∈ entries, ¬ Clash a b

instance (dir file : Name) : Decidable (Below dir file) :=
  inferInstanceAs (Decidable (dir ++ [47] <+: file))

instance (a b : CacheEntry) : Decidable (Clash a b) :=
  decidable_of_iff' _ (clash_iff a b)

section Names

variable {dir dir' : Name}

theorem below_iff : Below dir name ↔
    dir.length < name.length ∧ name[dir.length]? = some 47 ∧ name.take dir.length = dir := by
  rw [Below, prefix_iff_eq_take]
  constructor
  · intro h
    have hlen := congrArg List.length h
    simp only [length_append, length_singleton, length_take] at hlen
    have hlt : dir.length < name.length := by omega
    rw [length_append, length_singleton, take_add_one, getElem?_eq_getElem hlt] at h
    have happ := append_inj' h rfl
    refine ⟨hlt, ?_, happ.1.symm⟩
    rw [getElem?_eq_getElem hlt]
    exact congrArg some (singleton_inj.mp happ.2).symm
  · rintro ⟨hlt, hget, htake⟩
    rw [length_append, length_singleton, take_add_one, hget, htake]
    rfl

theorem Below.isPre (h : Below dir name) : dir <+: name :=
  (prefix_append dir [47]).trans h

theorem Below.lt (h : Below dir name) : dir < name := by
  refine lt_of_le_of_ne (prefix_le h.isPre) ?_
  rintro rfl
  exact absurd (below_iff.mp h).1 (Nat.lt_irrefl _)

theorem Below.trans (h : Below dir dir') (h' : Below dir' name) : Below dir name :=
  List.IsPrefix.trans h h'.isPre

/-- What is below a directory of the name is above everything that is above the name. -/
theorem Below.of_shorter (h : Below dir name) (h' : Below dir' name)
    (hlt : dir.length < dir'.length) : Below dir dir' := by
  refine prefix_of_prefix_length_le h h'.isPre ?_
  rw [length_append, length_singleton]
  exact hlt

end Names

theorem Consistent.sublist (h : Consistent entries) (hsub : lo.Sublist entries) : Consistent lo where
  ascending := h.ascending.sublist hsub
  noClash a ha b hb := h.noClash a (hsub.subset ha) b (hsub.subset hb)

/-- The entry is at odds with the new one. -/
def Conflicts (ce p : CacheEntry) : Prop := Clash ce p ∨ Clash p ce

instance (ce p : CacheEntry) : Decidable (Conflicts ce p) :=
  inferInstanceAs (Decidable (Clash ce p ∨ Clash p ce))

/-- An index with the new entry in it has no conflicts if there are none with the new entry. -/
theorem noClash_insert_iff (h : ∀ a ∈ lo ++ hi, ∀ b ∈ lo ++ hi, ¬ Clash a b) :
    (∀ a ∈ lo ++ ce :: hi, ∀ b ∈ lo ++ ce :: hi, ¬ Clash a b) ↔
      ∀ p ∈ lo ++ hi, ¬ Conflicts ce p := by
  have hmem : ∀ {a}, a ∈ lo ++ ce :: hi ↔ a = ce ∨ a ∈ lo ++ hi := by grind
  constructor
  · rintro hnew p hp (hclash | hclash)
    · exact hnew ce (hmem.mpr (.inl rfl)) p (hmem.mpr (.inr hp)) hclash
    · exact hnew p (hmem.mpr (.inr hp)) ce (hmem.mpr (.inl rfl)) hclash
  intro hnone a ha b hb hclash
  rcases hmem.mp ha with rfl | ha' <;> rcases hmem.mp hb with rfl | hb'
  · exact lt_irrefl _ hclash.below.lt
  · exact hnone b hb' (.inl hclash)
  · exact hnone a ha' (.inr hclash)
  · exact h a ha' b hb' hclash

/-- Files below the new entry and files at its directories do not occur together. -/
theorem Consistent.not_both (h : Consistent entries) {p q : CacheEntry} (hp : p ∈ entries)
    (hq : q ∈ entries) (hbelow : Clash ce p) (habove : Clash q ce) : False :=
  h.noClash q hq p hp
    ⟨habove.stage.trans hbelow.stage, habove.left, hbelow.right, habove.below.trans hbelow.below⟩

/-- What a search for entries with a property has to return: whether there are any, and the entries
that are left, without these if they may be replaced. -/
def outcome (okToReplace : Bool) (P : CacheEntry → Prop) [DecidablePred P]
    (entries : List CacheEntry) : Bool × List CacheEntry :=
  (decide (∃ p ∈ entries, P p), if okToReplace then entries.filter fun p => ¬ P p else entries)

section Outcome

variable {P Q : CacheEntry → Prop} [DecidablePred P] [DecidablePred Q]

theorem outcome_of_none (h : ∀ p ∈ entries, ¬ P p) :
    outcome okToReplace P entries = (false, entries) := by
  have hfilter : entries.filter (fun p => decide ¬ P p) = entries :=
    filter_eq_self.mpr fun p hp => decide_eq_true (h p hp)
  have hexists : ¬ ∃ p ∈ entries, P p := by
    rintro ⟨p, hp, hP⟩
    exact h p hp hP
  rw [outcome, hfilter, ite_self, decide_eq_false hexists]

theorem outcome_congr (h : ∀ p ∈ entries, P p ↔ Q p) :
    outcome okToReplace P entries = outcome okToReplace Q entries := by
  have hfilter : entries.filter (fun p => decide ¬ P p) =
      entries.filter fun p => decide ¬ Q p := by
    refine filter_congr fun p hp => ?_
    rw [decide_eq_decide, h p hp]
  have hexists : (∃ p ∈ entries, P p) ↔ ∃ p ∈ entries, Q p :=
    exists_congr fun p => and_congr_right fun hp => h p hp
  rw [outcome, outcome, hfilter, decide_eq_decide.mpr hexists]

/-- What is left are some of the entries. -/
theorem outcome_sublist : (outcome okToReplace P entries).2.Sublist entries := by
  cases okToReplace with
  | true => exact filter_sublist
  | false => exact List.Sublist.refl entries

end Outcome

/-! ## Files below the new entry -/

/-- The test of the loop on an entry that begins with the name. -/
theorem clash_of_live {p : CacheEntry} (hlive : ce.remove = false)
    (hlen : ¬ ce.name.length ≥ p.name.length) (htake : ¬ p.name.take ce.name.length ≠ ce.name) :
    Clash ce p ↔ ¬ (p.stage ≠ ce.stage ∨ p.name[ce.name.length]? ≠ some 47 ∨ p.remove = true) := by
  rw [not_or, not_or, not_not, not_not, Bool.not_eq_true]
  constructor
  · intro h
    exact ⟨h.stage.symm, (below_iff.mp h.below).2.1, h.right⟩
  · rintro ⟨hstage, hslash, hremove⟩
    exact ⟨hstage.symm, hlive, hremove, below_iff.mpr ⟨not_le.mp hlen, hslash, not_not.mp htake⟩⟩

/-- **The loop of `has_file_name`** finds the files below the new entry, if none of the entries has
its name. -/
theorem fileNameLoop_eq (hlive : ce.remove = false) (hasc : Ascending hi)
    (hlt : ∀ p ∈ hi, ce.name < p.name) :
    fileNameLoop ce okToReplace hi = outcome okToReplace (Clash ce) hi := by
  induction hi with
  | nil => simp [fileNameLoop, outcome]
  | cons p rest ih =>
    have hrest := ih (pairwise_cons.mp hasc).2 (forall_mem_cons.mp hlt).2
    by_cases hpre : ce.name <+: p.name
    · have hlen : ¬ ce.name.length ≥ p.name.length := by
        intro hge
        exact (hlt p mem_cons_self).ne (hpre.eq_of_length_le hge)
      have htake : ¬ p.name.take ce.name.length ≠ ce.name :=
        not_not.mpr (prefix_iff_eq_take.mp hpre).symm
      have hclash := clash_of_live hlive hlen htake
      rw [fileNameLoop, if_neg hlen, if_neg htake, hrest, outcome, outcome]
      by_cases hp : Clash ce p
      · rw [if_neg (hclash.mp hp)]
        cases okToReplace <;> simp [hp]
      · rw [if_pos (not_not.mp (mt hclash.mpr hp))]
        cases okToReplace <;> simp [hp]
    · -- the loop ends here, and nothing that follows is below the name
      have hstop : fileNameLoop ce okToReplace (p :: rest) = (false, p :: rest) := by
        rw [fileNameLoop]
        grind
      rw [hstop]
      -- the entries below a name stand together after it
      refine (outcome_of_none fun q hq hclash => hpre ?_).symm
      refine prefix_of_between (prefix_refl _) hclash.below.isPre (hlt p mem_cons_self).le ?_
      rcases mem_cons.mp hq with rfl | hq
      · exact le_rfl
      · exact CacheEntry.name_le ((pairwise_cons.mp hasc).1 q hq)

/-- An entry of the same name stops the loop at once. -/
theorem fileNameLoop_of_same_name (hasc : Ascending hi) (hlt : ∀ p ∈ hi, ce.key < p.key)
    (hsame : ∃ e ∈ hi, e.name = ce.name) : fileNameLoop ce okToReplace hi = (false, hi) := by
  obtain ⟨e, he, hname⟩ := hsame
  cases hi with
  | nil => exact absurd he not_mem_nil
  | cons p rest =>
    have hp : p.name = ce.name := by
      refine le_antisymm ?_ (CacheEntry.name_le (hlt p mem_cons_self))
      rcases mem_cons.mp he with rfl | he
      · exact hname.le
      · exact hname ▸ CacheEntry.name_le ((pairwise_cons.mp hasc).1 e he)
    rw [fileNameLoop, if_pos (by rw [hp])]

/-! ## Files at the directories of the new entry -/

section DirName

theorem previousSlash_eq_none {n : Nat} (h : previousSlash name n = none) :
    ∀ i < n, name[i]? ≠ some 47 := by
  induction n with
  | zero => exact fun i hi => absurd hi (Nat.not_lt_zero i)
  | succ n ih =>
    rw [previousSlash] at h
    split_ifs at h with hslash
    intro i hi
    rcases Nat.lt_succ_iff_lt_or_eq.mp hi with hlt | rfl
    · exact ih h i hlt
    · exact hslash

variable {n len : Nat}

theorem previousSlash_eq_some (h : previousSlash name n = some len) :
    len < n ∧ name[len]? = some 47 ∧ ∀ i, len < i → i < n → name[i]? ≠ some 47 := by
  induction n with
  | zero => cases h
  | succ n ih =>
    rw [previousSlash] at h
    split_ifs at h with hslash
    · obtain rfl := Option.some.inj h
      exact ⟨Nat.lt_succ_self n, hslash, fun i hlt hlt' => by omega⟩
    obtain ⟨hlt, hget, hbetween⟩ := ih h
    refine ⟨by omega, hget, fun i hi hi' => ?_⟩
    rcases Nat.lt_succ_iff_lt_or_eq.mp hi' with hlt' | rfl
    · exact hbetween i hi hlt'
    · exact hslash

theorem previousSlash_length (h : previousSlash name n = some len) :
    (name.take len).length = len := by
  have hlen := (List.getElem?_eq_some_iff.mp (previousSlash_eq_some h).2.1).1
  rw [length_take]
  exact Nat.min_eq_left hlen.le

/-- A slash ends a directory of the name. -/
theorem previousSlash_below (h : previousSlash name n = some len) : Below (name.take len) name := by
  have hget := (previousSlash_eq_some h).2.1
  rw [below_iff, previousSlash_length h]
  exact ⟨(List.getElem?_eq_some_iff.mp hget).1, hget, rfl⟩

/-- The entry is a file at one of the directories that end before an offset of the name. -/
def ClashBefore (ce : CacheEntry) (n : Nat) (q : CacheEntry) : Prop := Clash q ce ∧ q.name.length < n

instance (n : Nat) (q : CacheEntry) : Decidable (ClashBefore ce n q) :=
  inferInstanceAs (Decidable (Clash q ce ∧ q.name.length < n))

variable {q : CacheEntry}

theorem clashBefore_length : ClashBefore ce ce.name.length q ↔ Clash q ce :=
  ⟨And.left, fun h => ⟨h, (below_iff.mp h.below).1⟩⟩

/-- The last slash before the offset ends one directory; the others are shorter. -/
theorem clashBefore_iff (h : previousSlash ce.name n = some len) :
    ClashBefore ce n q ↔
      ClashBefore ce len q ∨ Clash q ce ∧ q.name = ce.name.take len := by
  obtain ⟨hlt, hget, hbetween⟩ := previousSlash_eq_some h
  constructor
  · rintro ⟨hclash, hn⟩
    obtain ⟨-, hslash, htake⟩ := below_iff.mp hclash.below
    rcases Nat.lt_trichotomy q.name.length len with hless | heq | hgt
    · exact .inl ⟨hclash, hless⟩
    · exact .inr ⟨hclash, by rw [← heq, htake]⟩
    · exact absurd hslash (hbetween _ hgt hn)
  · rintro (⟨hclash, hless⟩ | ⟨hclash, heq⟩)
    · exact ⟨hclash, hless.trans hlt⟩
    refine ⟨hclash, ?_⟩
    rw [heq, length_take]
    omega

/-- A file of the stage below the directory that stays in the index. -/
theorem exists_of_occupied {dir : Name} (h : occupied ce dir entries = true) :
    ∃ p ∈ entries, Below dir p.name ∧ p.stage = ce.stage ∧ p.remove = false := by
  induction entries with
  | nil => cases h
  | cons p rest ih =>
    rw [occupied] at h
    split_ifs at h with hout hin
    · simp only [not_or, not_le, not_not] at hout
      exact ⟨p, mem_cons_self, below_iff.mpr ⟨hout.1, hout.2.1, hout.2.2⟩, hin.1, hin.2⟩
    · obtain ⟨q, hq, hprop⟩ := ih h
      exact ⟨q, mem_cons_of_mem p hq, hprop⟩

/-- A file at the directory has the key that the loop looks for. -/
theorem Clash.key_eq (h : Clash q ce) (hname : q.name = ce.name.take len) :
    q.key = toLex (ce.name.take len, ce.stage) := by
  rw [CacheEntry.key, hname, h.stage]

/-- The outcome of the loop for the directories that end before the offset. -/
def dirNameResult (ce : CacheEntry) (okToReplace : Bool) (n : Nat) (retval : Bool)
    (entries : List CacheEntry) : Bool × List CacheEntry :=
  let result := outcome okToReplace (ClashBefore ce n) entries
  (retval || result.1, result.2)

variable {retval : Bool}

theorem dirNameResult_of_none (h : ∀ q ∈ entries, ¬ ClashBefore ce n q) :
    dirNameResult ce okToReplace n retval entries = (retval, entries) := by
  rw [dirNameResult, outcome_of_none h]
  simp

/-- One round of the loop where no file is at the directory itself. If it ends because the directory
has an entry already, there is no shorter one either: it would be above that entry. -/
theorem dirNameResult_of_free {pos : Nat} (h : Consistent entries)
    (hslash : previousSlash ce.name n = some len)
    (hfree : ∀ q ∈ entries, ¬ (Clash q ce ∧ q.name = ce.name.take len)) :
    (if occupied ce (ce.name.take len) (entries.drop pos) = true then (retval, entries)
      else dirNameResult ce okToReplace len retval entries) =
      dirNameResult ce okToReplace n retval entries := by
  split
  · next hocc =>
    obtain ⟨p, hp, hbelow, hstage, hremove⟩ := exists_of_occupied hocc
    refine (dirNameResult_of_none fun q hq hbefore => ?_).symm
    have hshort := ((clashBefore_iff hslash).mp hbefore).resolve_right (hfree q hq)
    have habove : Below q.name (ce.name.take len) := by
      refine hshort.1.below.of_shorter (previousSlash_below hslash) ?_
      rw [previousSlash_length hslash]
      exact hshort.2
    exact h.noClash q hq p (mem_of_mem_drop hp)
      ⟨hshort.1.stage.trans hstage.symm, hshort.1.left, hremove, habove.trans hbelow⟩
  · have hcongr : ∀ q ∈ entries, ClashBefore ce len q ↔ ClashBefore ce n q := by
      intro q hq
      rw [clashBefore_iff hslash, or_iff_left (hfree q hq)]
    rw [dirNameResult, dirNameResult, outcome_congr hcongr]

/-- One round of the loop where a file is at the directory. -/
theorem dirNameResult_of_file {e : CacheEntry}
    (hasc : Ascending (lo ++ e :: hi)) (hslash : previousSlash ce.name n = some len)
    (hclash : Clash e ce) (hname : e.name = ce.name.take len) :
    (if okToReplace = true then dirNameResult ce okToReplace len true (lo ++ hi)
      else (true, lo ++ e :: hi)) =
      dirNameResult ce okToReplace n retval (lo ++ e :: hi) := by
  have he : ClashBefore ce n e := (clashBefore_iff hslash).mpr (.inr ⟨hclash, hname⟩)
  have hexists : ∃ q ∈ lo ++ e :: hi, ClashBefore ce n q := ⟨e, by simp, he⟩
  rw [dirNameResult, dirNameResult, outcome, outcome, decide_eq_true hexists]
  simp only [Bool.or_true, Bool.true_or]
  cases okToReplace with
  | false => rfl
  | true =>
    -- the other entries are not at this directory, since the keys differ
    have hother : ∀ q ∈ lo ++ hi, ClashBefore ce n q ↔ ClashBefore ce len q := by
      intro q hq
      rw [clashBefore_iff hslash, or_iff_left]
      rintro ⟨hq', hqname⟩
      have hkey : q.key = e.key := (hq'.key_eq hqname).trans (hclash.key_eq hname).symm
      rcases mem_append.mp hq with hmem | hmem
      · exact (hasc.lt_of_split hmem mem_cons_self).ne hkey
      · have htail := (pairwise_append.mp hasc).2.1
        exact ((pairwise_cons.mp htail).1 q hmem).ne' hkey
    have hfilter : (lo ++ e :: hi).filter (fun q => decide ¬ ClashBefore ce n q) =
        (lo ++ hi).filter fun q => decide ¬ ClashBefore ce n q := by
      simp [he]
    rw [hfilter]
    refine congrArg (Prod.mk true) (filter_congr fun q hq => ?_)
    rw [decide_eq_decide, hother q hq]

/-- **The loop of `has_dir_name`** finds the files at the directories of the new entry. -/
theorem dirNameLoop_eq {fuel : Nat} (hfuel : n ≤ fuel) (h : Consistent entries)
    (hlive : ce.remove = false) :
    dirNameLoop ce okToReplace fuel n retval entries =
      dirNameResult ce okToReplace n retval entries := by
  induction fuel generalizing n retval entries with
  | zero =>
    obtain rfl : n = 0 := Nat.le_zero.mp hfuel
    rw [dirNameLoop, dirNameResult_of_none fun q _ hq => Nat.not_lt_zero _ hq.2]
  | succ fuel ih =>
    rw [dirNameLoop]
    cases hslash : previousSlash ce.name n with
    | none =>
      -- without a slash before the offset there is no directory that ends there
      refine (dirNameResult_of_none fun q _ hq => ?_).symm
      exact previousSlash_eq_none hslash _ hq.2 (below_iff.mp hq.1.below).2.1
    | some len =>
      have hlen : len ≤ fuel := by
        have := (previousSlash_eq_some hslash).1
        omega
      dsimp only
      rw [ih hlen h]
      rcases indexNameStagePos_correct h.ascending (ce.name.take len) ce.stage with
        ⟨lo, e, hi, rfl, hpos, hkey⟩ | ⟨lo, hi, rfl, hpos, hlo, hhi⟩
      · obtain ⟨hname, hstage⟩ : e.name = ce.name.take len ∧ e.stage = ce.stage := by
          simpa [CacheEntry.key] using hkey
        have herase : removeIndexEntryAt (lo ++ e :: hi) lo.length = lo ++ hi := by
          rw [removeIndexEntryAt, eraseIdx_append_of_length_le le_rfl, Nat.sub_self]
          rfl
        have hsub : (lo ++ hi).Sublist (lo ++ e :: hi) :=
          (List.Sublist.refl lo).append (sublist_cons_self e hi)
        have hat : (lo ++ e :: hi)[lo.length]? = some e := by simp
        rw [hpos]
        dsimp only
        rw [hat, Option.map_some, Option.getD_some, herase, ih hlen (h.sublist hsub)]
        cases hremove : e.remove with
        | true =>
          -- the file that was here is about to go
          refine dirNameResult_of_free h hslash fun q hq hclash => ?_
          have hqe := h.ascending.eq_of_key hq (by simp) ((hclash.1.key_eq hclash.2).trans hkey.symm)
          have hleft := hclash.1.left
          rw [hqe, hremove] at hleft
          cases hleft
        | false =>
          refine dirNameResult_of_file h.ascending hslash ⟨hstage, hremove, hlive, ?_⟩ hname
          rw [hname]
          exact previousSlash_below hslash
      · rw [hpos]
        refine dirNameResult_of_free h hslash fun q hq hclash => ?_
        have hqkey := hclash.1.key_eq hclash.2
        grind

end DirName

/-! ## The check -/

/-- The name comes after all others, and differs from the last one at a byte that is not a slash. -/
def PastEnd (ce : CacheEntry) (entries : List CacheEntry) : Prop :=
  ∃ last, entries.getLast? = some last ∧ pastLast ce.name last = true

/-- An entry of the same name stands after the new one. -/
def Blocked (ce : CacheEntry) (entries : List CacheEntry) : Prop :=
  ∃ e ∈ entries, e.name = ce.name ∧ ce.stage < e.stage

/-- There is a conflict that the check does not notice. -/
def Missed (ce : CacheEntry) (entries : List CacheEntry) : Prop :=
  (Blocked ce entries ∧ ∃ p ∈ entries, Clash ce p) ∨ (PastEnd ce entries ∧ ∃ q ∈ entries, Clash q ce)

/-- A file below the new entry stands after it. -/
theorem Clash.key_lt {a b : CacheEntry} (h : Clash a b) : a.key < b.key :=
  CacheEntry.key_lt.mpr (.inl h.below.lt)

/-- **`has_file_name`** finds the files below the new entry, unless an entry of the same name stands
in the way. -/
theorem hasFileName_eq (hlive : ce.remove = false) (hasc : Ascending (lo ++ hi))
    (hlo : ∀ a ∈ lo, a.key < ce.key) (hhi : ∀ b ∈ hi, ce.key < b.key)
    (hseen : ¬ (Blocked ce (lo ++ hi) ∧ ∃ p ∈ lo ++ hi, Clash ce p)) :
    hasFileName ce okToReplace (lo ++ hi) lo.length = outcome okToReplace (Clash ce) (lo ++ hi) := by
  have hhiasc : Ascending hi := (pairwise_append.mp hasc).2.1
  have hlonone : ∀ a ∈ lo, ¬ Clash ce a := fun a ha h => lt_asymm (hlo a ha) h.key_lt
  rw [hasFileName, drop_left, take_left]
  by_cases hsame : ∃ e ∈ hi, e.name = ce.name
  · -- the loop ends at once, and there is nothing to find
    rw [fileNameLoop_of_same_name hhiasc hhi hsame]
    refine (outcome_of_none fun p hp hclash => ?_).symm
    obtain ⟨e, he, hname⟩ := hsame
    refine hseen ⟨⟨e, mem_append_right lo he, hname, ?_⟩, p, hp, hclash⟩
    exact ((CacheEntry.key_lt.mp (hhi e he)).resolve_left hname.not_gt).2
  · have hlt : ∀ p ∈ hi, ce.name < p.name := by
      intro p hp
      refine (CacheEntry.key_lt.mp (hhi p hp)).resolve_right ?_
      grind
    have hlofilter : lo.filter (fun p => decide ¬ Clash ce p) = lo :=
      filter_eq_self.mpr fun a ha => decide_eq_true (hlonone a ha)
    have hexists : (∃ p ∈ lo ++ hi, Clash ce p) ↔ ∃ p ∈ hi, Clash ce p := by
      constructor
      · rintro ⟨p, hp, hclash⟩
        exact ⟨p, (mem_append.mp hp).resolve_left fun ha => hlonone p ha hclash, hclash⟩
      · rintro ⟨p, hp, hclash⟩
        exact ⟨p, mem_append_right lo hp, hclash⟩
    rw [fileNameLoop_eq hlive hhiasc hlt, outcome, outcome, filter_append, hlofilter,
      decide_eq_decide.mpr hexists, apply_ite (lo ++ ·)]

theorem hasFileName_of_blocked (hasc : Ascending (lo ++ hi)) (hlo : ∀ a ∈ lo, a.key < ce.key)
    (hhi : ∀ b ∈ hi, ce.key < b.key) (hblocked : Blocked ce (lo ++ hi)) :
    hasFileName ce okToReplace (lo ++ hi) lo.length = (false, lo ++ hi) := by
  obtain ⟨e, he, hname, hstage⟩ := hblocked
  have hehi : e ∈ hi := by
    refine (mem_append.mp he).resolve_left fun ha => lt_asymm (hlo e ha) ?_
    exact CacheEntry.key_lt.mpr (.inr ⟨hname.symm, hstage⟩)
  rw [hasFileName, drop_left, take_left,
    fileNameLoop_of_same_name (pairwise_append.mp hasc).2.1 hhi ⟨e, hehi, hname⟩]

theorem hasDirName_of_pastEnd (h : PastEnd ce entries) :
    hasDirName ce okToReplace entries = (false, entries) := by
  obtain ⟨last, hlast, hpast⟩ := h
  rw [hasDirName, hlast]
  exact if_pos hpast

/-- **`has_dir_name`** finds the files at the directories of the new entry, unless it gives up. -/
theorem hasDirName_eq (hlive : ce.remove = false) (h : Consistent entries)
    (hseen : ¬ (PastEnd ce entries ∧ ∃ q ∈ entries, Clash q ce)) :
    hasDirName ce okToReplace entries = outcome okToReplace (fun q => Clash q ce) entries := by
  by_cases hpast : PastEnd ce entries
  · rw [hasDirName_of_pastEnd hpast]
    exact (outcome_of_none fun q hq hclash => hseen ⟨hpast, q, hq, hclash⟩).symm
  rw [hasDirName]
  split
  · next hlast =>
    obtain rfl := getLast?_eq_none_iff.mp hlast
    simp [outcome]
  · next last hlast =>
    rw [if_neg fun hpl => hpast ⟨last, hlast, hpl⟩, dirNameLoop_eq le_rfl h hlive, dirNameResult,
      outcome_congr fun q _ => clashBefore_length]
    simp

section

variable (hlive : ce.remove = false) (h : Consistent (lo ++ hi)) (hlo : ∀ a ∈ lo, a.key < ce.key)
  (hhi : ∀ b ∈ hi, ce.key < b.key)

include hlive h hlo hhi

/-- A conflict that is not noticed leaves the index as it is. -/
theorem checkFileDirectoryConflict_of_missed (hmissed : Missed ce (lo ++ hi)) :
    checkFileDirectoryConflict ce okToReplace (lo ++ hi) lo.length = (false, lo ++ hi) := by
  have hfile : hasFileName ce okToReplace (lo ++ hi) lo.length = (false, lo ++ hi) := by
    rcases hmissed with ⟨hblocked, -⟩ | ⟨-, q, hq, habove⟩
    · exact hasFileName_of_blocked h.ascending hlo hhi hblocked
    have hnone : ∀ p ∈ lo ++ hi, ¬ Clash ce p := fun p hp hbelow => h.not_both hp hq hbelow habove
    rw [hasFileName_eq hlive h.ascending hlo hhi, outcome_of_none hnone]
    rintro ⟨-, p, hp, hbelow⟩
    exact hnone p hp hbelow
  have hdir : hasDirName ce okToReplace (lo ++ hi) = (false, lo ++ hi) := by
    rcases hmissed with ⟨-, p, hp, hbelow⟩ | ⟨hpast, -⟩
    · have hnone : ∀ q ∈ lo ++ hi, ¬ Clash q ce := fun q hq habove => h.not_both hp hq hbelow habove
      rw [hasDirName_eq hlive h, outcome_of_none hnone]
      rintro ⟨-, q, hq, habove⟩
      exact hnone q hq habove
    · exact hasDirName_of_pastEnd hpast
  rw [checkFileDirectoryConflict, if_neg (by simp [hlive]), hfile]
  dsimp only
  rw [hdir]
  rfl

/-- **The check** notices the other conflicts, and removes the entries if that is allowed. -/
theorem checkFileDirectoryConflict_eq (hseen : ¬ Missed ce (lo ++ hi)) :
    checkFileDirectoryConflict ce okToReplace (lo ++ hi) lo.length =
      outcome okToReplace (Conflicts ce) (lo ++ hi) := by
  rw [Missed, not_or] at hseen
  rw [checkFileDirectoryConflict, if_neg (by simp [hlive]),
    hasFileName_eq hlive h.ascending hlo hhi hseen.1]
  dsimp only
  by_cases hbelow : ∃ p ∈ lo ++ hi, Clash ce p
  · -- then no file is at a directory of the entry
    obtain ⟨p, hp, hclash⟩ := hbelow
    have hnone : ∀ q ∈ lo ++ hi, ¬ Clash q ce := fun q hq habove => h.not_both hp hq hclash habove
    have hsub : (outcome okToReplace (Clash ce) (lo ++ hi)).2.Sublist (lo ++ hi) := outcome_sublist
    have hnone' := fun q hq => hnone q (hsub.subset hq)
    rw [hasDirName_eq hlive (h.sublist hsub), outcome_of_none hnone', Bool.or_false]
    · exact outcome_congr fun q hq => (or_iff_left (hnone q hq)).symm
    grind
  · have hnone : ∀ q ∈ lo ++ hi, ¬ Clash ce q := fun q hq hclash => hbelow ⟨q, hq, hclash⟩
    rw [outcome_of_none hnone]
    rw [hasDirName_eq hlive h hseen.2, Bool.false_or]
    exact outcome_congr fun q hq => (or_iff_right (hnone q hq)).symm

end

end GitCore.Index
