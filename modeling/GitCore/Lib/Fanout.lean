import GitCore.Lib.BinarySearch
import GitCore.Lib.SortedList

/-! # Fan-out tables

A sorted array of keys is searched with the help of a table that has, for each bucket of keys, the
number of keys up to it. The table is written in one pass over the array, and it cuts out the part
of the array that a binary search has to look at. -/

namespace GitCore

open List

universe u v

variable {α : Type u} {κ : Type v}

/-! ## Writing -/

/-- The number of elements up to a bucket. -/
def bucketCount (bucket : α → Nat) (l : List α) (v : Nat) : Nat :=
  l.countP fun a => decide (bucket a ≤ v)

/-- The pass over a list for `n` more buckets from `i` on, with `count` elements behind it. -/
def fanoutLoop (bucket : α → Nat) : Nat → Nat → List α → Nat → List Nat
  | 0, _, _, _ => []
  | n + 1, i, list, count =>
    let next := list.takeWhile fun a => decide (bucket a = i)
    (count + next.length) :: fanoutLoop bucket n (i + 1) (list.drop next.length) (count + next.length)

variable {bucket : α → Nat} {l : List α}

theorem bucketCount_le_length (v : Nat) : bucketCount bucket l v ≤ l.length := countP_le_length

theorem bucketCount_mono {v w : Nat} (h : v ≤ w) : bucketCount bucket l v ≤ bucketCount bucket l w :=
  countP_mono_left fun a _ ha => by
    simp only [decide_eq_true_eq] at ha ⊢
    omega

/-- The last bucket counts everything. -/
theorem bucketCount_eq_length {v : Nat} (h : ∀ a ∈ l, bucket a ≤ v) :
    bucketCount bucket l v = l.length :=
  countP_eq_length.mpr fun a ha => decide_eq_true (h a ha)

section

variable (hl : l.Pairwise fun a b => bucket a ≤ bucket b)

include hl

/-- The elements up to a bucket are at the front of a list in the order of the buckets. -/
theorem initial_bucket (v : Nat) : Initial (fun a => decide (bucket a ≤ v)) l :=
  hl.imp fun {a b} hab hb => by
    simp only [decide_eq_true_eq] at hb ⊢
    omega

/-- The run of a bucket at the front of a list. -/
theorem length_takeWhile_bucket {i : Nat} (hfrom : ∀ a ∈ l, i ≤ bucket a) :
    (l.takeWhile fun a => decide (bucket a = i)).length = bucketCount bucket l i := by
  have hinitial : Initial (fun a => decide (bucket a = i)) l := by
    refine hl.imp_of_mem fun {a b} ha _ hab hb => ?_
    grind
  rw [hinitial.takeWhile_eq.1, ← countP_eq_length_filter, bucketCount]
  refine countP_congr fun a ha => ?_
  have := hfrom a ha
  simp only [decide_eq_true_eq]
  omega

/-- **One pass** finds the counts of all buckets. -/
theorem fanoutLoop_eq {n i count : Nat} (hfrom : ∀ a ∈ l, i ≤ bucket a) :
    fanoutLoop bucket n i l count =
      (List.range' i n).map fun v => count + bucketCount bucket l v := by
  induction n generalizing i l count with
  | zero => rfl
  | succ n ih =>
    obtain ⟨htake, hdrop⟩ := (initial_bucket hl i).splitAt_countP
    rw [fanoutLoop, length_takeWhile_bucket hl hfrom, range'_succ, map_cons]
    refine congrArg (_ :: ·) ?_
    rw [ih hl.drop ?_]
    · -- the counts of later buckets contain the run
      refine map_congr_left fun v hv => ?_
      have hiv : i + 1 ≤ v := (mem_range'_1.mp hv).1
      have hrun : bucketCount bucket (l.take (bucketCount bucket l i)) v = bucketCount bucket l i := by
        unfold bucketCount
        rw [htake, countP_filter]
        grind
      have hsum : bucketCount bucket l v = bucketCount bucket (l.take (bucketCount bucket l i)) v +
          bucketCount bucket (l.drop (bucketCount bucket l i)) v := by
        conv_lhs => rw [← take_append_drop (bucketCount bucket l i) l, bucketCount, countP_append]
        rfl
      omega
    · intro a ha
      rw [show l.drop (bucketCount bucket l i) = _ from hdrop] at ha
      grind

end

/-! ## Searching -/

section Search

variable [LinearOrder κ] {key : α → κ} {bucket : κ → Nat} {i j : Nat} {a b : α}

theorem key_lt_of_lt (hl : l.Pairwise fun a b => key a < key b) (hij : i < j)
    (ha : l[i]? = some a) (hb : l[j]? = some b) : key a < key b := by
  obtain ⟨hi, rfl⟩ := List.getElem?_eq_some_iff.mp ha
  obtain ⟨hj, rfl⟩ := List.getElem?_eq_some_iff.mp hb
  exact pairwise_iff_getElem.mp hl i j hi hj hij

/-- No two positions have the same key. -/
theorem position_unique (hl : l.Pairwise fun a b => key a < key b)
    (ha : l[i]? = some a) (hb : l[j]? = some b) (hkey : key a = key b) : i = j := by
  rcases lt_trichotomy i j with hlt | heq | hlt
  · exact absurd hkey (key_lt_of_lt hl hlt ha hb).ne
  · exact heq
  · exact absurd hkey (key_lt_of_lt hl hlt hb ha).ne'

/-- **The comparison of a key with the element at each position** of a list. -/
def ComparesWith (k : κ) (key : α → κ) (l : List α) (cmp : Nat → Ordering) : Prop :=
  ∀ i a, l[i]? = some a → (cmp i = .lt ↔ k < key a) ∧ (cmp i = .gt ↔ key a < k)

variable {cmp : Nat → Ordering} {k : κ}

theorem ComparesWith.eq_iff (h : ComparesWith k key l cmp) (ha : l[i]? = some a) :
    cmp i = .eq ↔ key a = k := by
  obtain ⟨hlt, hgt⟩ := h i a ha
  cases hcmp : cmp i with
  | lt => simp [(hlt.mp hcmp).ne']
  | gt => simp [(hgt.mp hcmp).ne]
  | eq =>
    grind

/-- Beyond an element that is greater than the key, all are, and before a smaller one all are. -/
theorem ComparesWith.sorted (h : ComparesWith k key l cmp)
    (hl : l.Pairwise fun a b => key a < key b) (i j : Nat) (hij : i < j) (hj : j < l.length) :
    (cmp i = .lt → cmp j = .lt) ∧ (cmp j = .gt → cmp i = .gt) := by
  have ha := getElem?_eq_getElem (hij.trans hj)
  have hb := getElem?_eq_getElem hj
  have hlt := key_lt_of_lt hl hij ha hb
  rw [(h i _ ha).1, (h i _ ha).2, (h j _ hb).1, (h j _ hb).2]
  exact ⟨fun hi => hi.trans hlt, hlt.trans⟩

/-- A search between bounds that leave out no candidate finds the key where it is. -/
theorem binarySearchLoop_eq_inl_iff (h : ComparesWith k key l cmp)
    (hl : l.Pairwise fun a b => key a < key b) {lo hi : Nat} (hle : lo ≤ hi) (hsize : hi ≤ l.length)
    (hlow : ∀ i < lo, cmp i = .gt) (hhigh : ∀ i, hi ≤ i → i < l.length → cmp i = .lt) (pos : Nat) :
    binarySearchLoop cmp (hi - lo) lo hi = .inl pos ↔ ∃ a, l[pos]? = some a ∧ key a = k := by
  rcases binarySearchLoop_spec (h.sorted hl) (show hi ≤ lo + (hi - lo) by omega) hle hsize hlow hhigh
    with ⟨p, hp, hfound, heq⟩ | ⟨p, hp, hmissed, hbefore, hafter⟩
  · have ha := getElem?_eq_getElem hp
    rw [h.eq_iff ha] at heq
    rw [hfound]
    constructor
    · rintro ⟨⟩
      exact ⟨_, ha, heq⟩
    · rintro ⟨b, hb, hkey⟩
      exact congrArg Sum.inl (position_unique hl ha hb (heq.trans hkey.symm))
  · rw [hmissed]
    constructor
    · exact fun hcon => by cases hcon
    rintro ⟨a, ha, hkey⟩
    obtain ⟨hpos, -⟩ := List.getElem?_eq_some_iff.mp ha
    have hself := (h.eq_iff ha).mpr hkey
    grind

/-- The elements of a list with ascending keys are in the order of their buckets. -/
theorem pairwise_bucket (hmono : Monotone bucket) (hl : l.Pairwise fun a b => key a < key b) :
    l.Pairwise fun a b => bucket (key a) ≤ bucket (key b) :=
  hl.imp fun hab => hmono hab.le

/-- The start of a bucket, as the table has it. -/
theorem fanout_start {fanout : Nat → Option Nat} {count : Nat → Nat} {v n : Nat}
    (h : ∀ i < n, fanout i = some (count i)) (hv : v < n) :
    (if v = 0 then some 0 else fanout (v - 1)) = some (if v = 0 then 0 else count (v - 1)) := by
  split
  · rfl
  · exact h _ (by omega)

/-- **The search in the bucket of a key** finds the key, if it is there at all. -/
theorem fanout_search (h : ComparesWith k key l cmp) (hmono : Monotone bucket)
    (hl : l.Pairwise fun a b => key a < key b) {lo hi : Nat}
    (hlo : lo = if bucket k = 0 then 0 else bucketCount (fun a => bucket (key a)) l (bucket k - 1))
    (hhi : hi = bucketCount (fun a => bucket (key a)) l (bucket k)) (pos : Nat) :
    binarySearchLoop cmp (hi - lo) lo hi = .inl pos ↔ ∃ a, l[pos]? = some a ∧ key a = k := by
  have hinitial := initial_bucket (pairwise_bucket hmono hl)
  subst hlo hhi
  refine binarySearchLoop_eq_inl_iff h hl ?_ (bucketCount_le_length _) ?_ ?_ pos
  · split
    · exact Nat.zero_le _
    · exact bucketCount_mono (Nat.sub_le _ _)
  · -- what comes before has a smaller bucket
    intro i hi
    split at hi
    · exact absurd hi (Nat.not_lt_zero i)
    have ha := getElem?_eq_getElem (hi.trans_le (bucketCount_le_length _))
    have hle := ((hinitial _).lt_countP_iff ha).mp hi
    rw [(h i _ ha).2]
    by_contra hge
    have := hmono (not_lt.mp hge)
    simp only [decide_eq_true_eq] at hle
    omega
  · intro i hi hlength
    have ha := getElem?_eq_getElem hlength
    have hgt := (not_congr ((hinitial _).lt_countP_iff ha)).mp (Nat.not_lt.mpr hi)
    rw [(h i _ ha).1]
    by_contra hge
    exact hgt (decide_eq_true (hmono (not_lt.mp hge)))

end Search

end GitCore
