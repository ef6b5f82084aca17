import GitCore.Lib.SortedList
import Mathlib.Data.Finset.Sort

/-! # Overlays of keyed lists

A stack of lists of records, later lists on top. `newest` looks a key up from the top, and
`overlay` lists what the lookups find, ordered by key. A list is a `Run` when its keys ascend
strictly, so that it holds at most one record for a key.

Splitting the stack splits the lookup (`newest_append`), and a strictly ascending list is
determined by its records (`Run.ext`); together these turn statements about overlays into
statements about single keys. -/

namespace GitCore.Overlay

open List

variable {α κ : Type*} [LinearOrder κ] (key : α → κ)

/-- The keys ascend strictly. -/
def Run (l : List α) : Prop := l.Pairwise fun a b => key a < key b

/-- The rest of a list behind the keys below `want`. -/
def dropBelow (want : κ) (l : List α) : List α := l.dropWhile fun r => key r < want

/-- The record with key `k` in one list. -/
def find (k : κ) (l : List α) : Option α := l.find? fun r => key r = k

/-- The record with key `k` in the topmost list that has one. -/
def newest (k : κ) : List (List α) → Option α
  | [] => none
  | l :: ls => (newest k ls).or (find key k l)

/-- The keys that occur in a stack. -/
def keys (ls : List (List α)) : Finset κ := (ls.flatten.map key).toFinset

/-- For every key that is not below `want`, in ascending order, the newest record. -/
def overlay (want : κ) (ls : List (List α)) : List α :=
  (((keys key ls).filter (want ≤ ·)).sort (· ≤ ·)).filterMap (newest key · ls)

variable {key}

/-! ## One run -/

theorem Run.tail {r : α} {l : List α} (h : Run key (r :: l)) : Run key l :=
  (pairwise_cons.mp h).2

variable {l : List α} {r : α}

theorem Run.head_lt (h : Run key (r :: l)) {x : α} (hx : x ∈ l) : key r < key x :=
  (pairwise_cons.mp h).1 x hx

/-- Skipping keys leaves a run. -/
theorem Run.dropBelow (h : Run key l) (want : κ) : Run key (dropBelow key want l) :=
  h.sublist (dropWhile_sublist _)

variable {want : κ}

/-- A mapped run, by the keys of the images. -/
theorem run_map {β : Type*} {f : β → α} {l : List β} :
    Run key (l.map f) ↔ Run (fun b => key (f b)) l :=
  pairwise_map

theorem dropBelow_cons_of_lt (h : key r < want) (l : List α) :
    dropBelow key want (r :: l) = dropBelow key want l :=
  dropWhile_cons_of_pos (decide_eq_true h)

theorem dropBelow_cons_of_le (h : want ≤ key r) (l : List α) :
    dropBelow key want (r :: l) = r :: l :=
  dropWhile_cons_of_neg (by simpa using h)

/-- In a run, skipping the keys below `want` is picking those from `want` on. -/
theorem Run.dropBelow_eq_filter (h : Run key l) (want : κ) :
    Overlay.dropBelow key want l = l.filter fun r => want ≤ key r := by
  rw [Overlay.dropBelow, (initial_lt h want).takeWhile_eq.2]
  exact filter_congr fun r _ => by rw [← decide_not, decide_eq_decide, not_lt]

/-- Skipping the keys below `want` leaves the records from `want` on. -/
theorem Run.mem_dropBelow (h : Run key l) :
    r ∈ Overlay.dropBelow key want l ↔ r ∈ l ∧ want ≤ key r := by
  rw [h.dropBelow_eq_filter, mem_filter, decide_eq_true_eq]

variable {k : κ} {ls : List (List α)}

/-- In a run a record is found by its key. -/
theorem Run.find_eq_some (h : Run key l) : find key k l = some r ↔ r ∈ l ∧ key r = k := by
  have hkeys : (l.map key).Nodup := pairwise_map.mpr (h.imp ne_of_lt)
  have hfound : ∀ x, find key k l = some x → x ∈ l ∧ key x = k := fun x hx =>
    ⟨mem_of_find?_eq_some hx, by simpa using find?_some hx⟩
  refine ⟨hfound r, ?_⟩
  rintro ⟨hr, rfl⟩
  cases hx : find key (key r) l with
  | none => simpa using find?_eq_none.mp hx r hr
  | some x => rw [inj_on_of_nodup_map hkeys (hfound x hx).1 hr (hfound x hx).2]

/-- A run grows at its end. -/
theorem Run.concat (h : Run key l) (hlast : ∀ x ∈ l.getLast?, key x < key r) :
    Run key (l ++ [r]) := by
  refine pairwise_append.mpr ⟨h, pairwise_singleton _ _, ?_⟩
  intro x hx y hy
  obtain rfl := mem_singleton.mp hy
  obtain ⟨init, z, rfl⟩ := (eq_nil_or_concat' l).resolve_left (ne_nil_of_mem hx)
  have hz : key z < key y := hlast z (by simp)
  rcases mem_append.mp hx with hx | hx
  · exact ((pairwise_append.mp h).2.2 x hx z (mem_singleton_self z)).trans hz
  · rw [mem_singleton.mp hx]
    exact hz

/-- Two runs with the same records are equal. -/
theorem Run.ext {m : List α} (hl : Run key l) (hm : Run key m) (h : ∀ r, r ∈ l ↔ r ∈ m) :
    l = m := by
  have hnodup : ∀ {l : List α}, Run key l → l.Nodup := fun hl =>
    hl.imp fun hlt heq => by rw [heq] at hlt; exact lt_irrefl _ hlt
  exact Perm.eq_of_pairwise (fun a b _ _ hab hba => absurd hab (lt_asymm hba)) hl hm
    ((perm_ext_iff_of_nodup (hnodup hl) (hnodup hm)).mpr h)

/-! ## Stacks -/

/-- Lookup in a stack that is split in two: the upper part first. -/
theorem newest_append (k : κ) (ls ms : List (List α)) :
    newest key k (ls ++ ms) = (newest key k ms).or (newest key k ls) := by
  induction ls with
  | nil => simp [newest]
  | cons l ls ih => rw [cons_append, newest, newest, ih, Option.or_assoc]

/-- A lookup fails when no list has the key. -/
theorem newest_eq_none (ls : List (List α)) :
    newest key k ls = none ↔ ∀ l ∈ ls, ∀ x ∈ l, key x ≠ k := by
  induction ls with
  | nil => simp [newest]
  | cons l ls ih => simp [newest, ih, find, and_comm]

/-- What a lookup finds: the record of the topmost run that has the key. -/
theorem newest_eq_some (ls : List (List α)) (h : ∀ l ∈ ls, Run key l) :
    newest key k ls = some r ↔ key r = k ∧ ∃ (i : Nat) (l : List α), ls[i]? = some l ∧
      r ∈ l ∧ ∀ (j : Nat) m x, ls[j]? = some m → x ∈ m → key x = k → j ≤ i := by
  induction ls with
  | nil => simp [newest]
  | cons l ls ih =>
    have ih' := ih (forall_mem_cons.mp h).2
    have hl : Run key l := h l mem_cons_self
    rw [newest, Option.or_eq_some_iff, ih', hl.find_eq_some, newest_eq_none]
    constructor
    · rintro (⟨hk, i, m, hi, hr, hmax⟩ | ⟨hnone, hr, hk⟩)
      · refine ⟨hk, i + 1, m, hi, hr, fun j m' x hj hx hxk => ?_⟩
        grind
      · refine ⟨hk, 0, l, rfl, hr, fun j m x hj hx hxk => ?_⟩
        grind
    · rintro ⟨hk, i, m, hi, hr, hmax⟩
      cases i with
      | zero =>
        cases hi
        refine .inr ⟨fun m hm x hx hxk => ?_, hr, hk⟩
        obtain ⟨j, hj⟩ := mem_iff_getElem?.mp hm
        exact absurd (hmax (j + 1) m x hj hx hxk) (by omega)
      | succ i =>
        exact .inl ⟨hk, i, m, hi, hr, fun j m' x hj hx hxk =>
          Nat.le_of_succ_le_succ (hmax (j + 1) m' x hj hx hxk)⟩

/-! ## The overlay -/

/-- The records of an overlay. -/
theorem mem_overlay (h : ∀ l ∈ ls, Run key l) :
    r ∈ overlay key want ls ↔ want ≤ key r ∧ newest key (key r) ls = some r := by
  unfold overlay
  rw [mem_filterMap]
  constructor
  · rintro ⟨k, hk, hr⟩
    obtain rfl := ((newest_eq_some ls h).mp hr).1
    exact ⟨(Finset.mem_filter.mp ((Finset.mem_sort _).mp hk)).2, hr⟩
  · rintro ⟨hwant, hr⟩
    obtain ⟨-, i, l, hi, hl, -⟩ := (newest_eq_some ls h).mp hr
    refine ⟨key r, (Finset.mem_sort _).mpr (Finset.mem_filter.mpr ⟨?_, hwant⟩), hr⟩
    rw [keys, mem_toFinset]
    exact mem_map_of_mem (mem_flatten.mpr ⟨l, mem_of_getElem? hi, hl⟩)

/-- The overlay is a run again. -/
theorem run_overlay (want : κ) (h : ∀ l ∈ ls, Run key l) : Run key (overlay key want ls) := by
  refine List.Pairwise.filterMap _ (fun k k' hlt r hr r' hr' => ?_)
    (Finset.sortedLT_sort ((keys key ls).filter (want ≤ ·))).pairwise
  rw [((newest_eq_some ls h).mp hr).1, ((newest_eq_some ls h).mp hr').1]
  exact hlt

/-! ## Replacing a part of the stack -/

section Replace

variable (hide : α → Bool)

/-- Two stacks show the same records, hidden ones apart, if the lookups agree on them. -/
theorem filter_overlay_congr {ms : List (List α)} (hls : ∀ l ∈ ls, Run key l)
    (hms : ∀ l ∈ ms, Run key l) (want : κ)
    (h : ∀ r, hide r = false → (newest key (key r) ls = some r ↔ newest key (key r) ms = some r)) :
    (overlay key want ls).filter (fun r => !hide r)
      = (overlay key want ms).filter (fun r => !hide r) := by
  refine Run.ext ((run_overlay want hls).filter _) ((run_overlay want hms).filter _) ?_
  intro r
  rw [mem_filter, mem_filter, mem_overlay hls, mem_overlay hms, Bool.not_eq_true']
  exact and_congr_left fun hvis => and_congr_right fun _ => h r hvis

/-- **Compaction.** A part of the stack may be replaced by one run that holds what the lookups in
that part find. Hidden records may be left out of it when nothing lies below. -/
theorem filter_overlay_replace {pre mid post : List (List α)} {c : List α}
    (hpre : ∀ l ∈ pre, Run key l) (hmid : ∀ l ∈ mid, Run key l) (hpost : ∀ l ∈ post, Run key l)
    (hc : Run key c) (want : κ)
    (hmem : ∀ r, r ∈ c ↔ newest key (key r) mid = some r ∧ ¬ (pre = [] ∧ hide r = true)) :
    (overlay key want (pre ++ [c] ++ post)).filter (fun r => !hide r)
      = (overlay key want (pre ++ mid ++ post)).filter (fun r => !hide r) := by
  apply filter_overlay_congr hide
  · grind
  · grind
  intro r hvis
  have hfind : ∀ x, find key (key r) c = some x ↔
      newest key (key r) mid = some x ∧ ¬ (pre = [] ∧ hide x = true) := by
    intro x
    rw [hc.find_eq_some, hmem]
    constructor
    · grind
    · rintro ⟨hx, hkeep⟩
      have hk := ((newest_eq_some mid hmid).mp hx).1
      exact ⟨⟨hk.symm ▸ hx, hkeep⟩, hk⟩
  simp only [newest_append, newest, Option.none_or]
  by_cases hbot : pre = []
  · -- nothing below: what is left out of `c` is hidden
    subst hbot
    simp only [newest, Option.or_none, Option.or_eq_some_iff, hfind, true_and]
    grind
  · have heq : find key (key r) c = newest key (key r) mid := by
      apply Option.ext
      grind
    rw [heq]

/-- An empty list in the stack does not matter. -/
theorem overlay_append_nil {pre post : List (List α)} (hpre : ∀ l ∈ pre, Run key l)
    (hpost : ∀ l ∈ post, Run key l) (want : κ) :
    (overlay key want (pre ++ [[]] ++ post)).filter (fun r => !hide r)
      = (overlay key want (pre ++ post)).filter (fun r => !hide r) := by
  have h := filter_overlay_replace hide hpre (forall_mem_nil _) hpost List.Pairwise.nil want
    fun r => by simp [newest]
  rwa [append_nil] at h

end Replace

end GitCore.Overlay
