import GitCore.CacheTree.Model
import GitCore.Lib.PrefixOrder
import Mathlib.Algebra.Ring.Nat
import Mathlib.Data.List.TakeWhile

/-! # Directories of a sorted index

The entries below a directory stand together in a sorted index, and so do those of each directory in
it. `Blocks` is that structure, on which the loops of `update_one` run, and `treeBytes` is the tree
object that the entries of a directory make. -/

namespace GitCore.CacheTree

open List Index

/-! ## Entries below a directory -/

section Level

variable {base base' name rest : Name} {ce : CacheEntry}

theorem inLevel_iff : inLevel base ce = true ↔ base.length < ce.name.length ∧ base <+: ce.name := by
  rw [inLevel, decide_eq_true_eq]

/-- An entry below a directory is below those that this one is in. -/
theorem inLevel_up (hbase : base <+: base') (h : inLevel base' ce = true) :
    inLevel base ce = true := by
  rw [inLevel_iff] at h ⊢
  exact ⟨hbase.length_le.trans_lt h.1, hbase.trans h.2⟩

theorem prefix_subBase (base name : Name) : base <+: subBase base name :=
  ⟨name ++ [47], by rw [subBase, append_assoc]⟩

theorem length_subBase (base name : Name) :
    (subBase base name).length = base.length + name.length + 1 := by
  rw [subBase, length_append, length_append, length_singleton]

/-- The name of an entry below a directory. -/
theorem exists_of_inLevel_subBase (h : inLevel (subBase base name) ce = true) :
    ∃ rest, ce.name = base ++ (name ++ 47 :: rest) := by
  obtain ⟨-, rest, hrest⟩ := inLevel_iff.mp h
  refine ⟨rest, ?_⟩
  rw [← hrest, subBase, append_assoc, append_assoc, singleton_append]

theorem takeWhile_slash (hname : 47 ∉ name) (rest : Name) :
    (name ++ 47 :: rest).takeWhile (· ≠ 47) = name := by
  rw [takeWhile_append_of_pos, takeWhile_cons_of_neg, append_nil]
  · simp
  grind

/-- A path with a slash, at the first one. -/
theorem slash_split {path : Name} {c : UInt8} (h : path.dropWhile (· ≠ 47) = c :: rest) :
    ∃ dir, path = dir ++ 47 :: rest ∧ 47 ∉ dir := by
  have hc : c = 47 := by
    have hhead := head?_dropWhile_not (fun c : UInt8 => decide (c ≠ 47)) path
    rw [h] at hhead
    simpa using hhead
  refine ⟨path.takeWhile (· ≠ 47), ?_, fun hcon => ?_⟩
  · rw [← hc, ← h, hc, takeWhile_append_dropWhile]
  · simpa using mem_takeWhile_imp hcon

/-- The first component of a path is unique. -/
theorem slash_unique {dir : Name} (hname : 47 ∉ name) (hdir : 47 ∉ dir)
    (h : (name ++ [47]) <+: (dir ++ 47 :: rest)) : name = dir := by
  obtain ⟨tail, htail⟩ := h
  rw [append_assoc, singleton_append] at htail
  rw [← takeWhile_slash hname tail, htail, takeWhile_slash hdir]

/-- An entry below a directory has its name as the next component. -/
theorem subdirectory_of_inLevel (hname : 47 ∉ name) (h : inLevel (subBase base name) ce = true) :
    subdirectory base ce = some name := by
  obtain ⟨rest, hce⟩ := exists_of_inLevel_subBase h
  have hpath : ce.name.drop base.length = name ++ 47 :: rest := by rw [hce, drop_left]
  have hslash : (name ++ 47 :: rest).contains 47 = true :=
    contains_iff_mem.mpr (mem_append_right _ mem_cons_self)
  rw [subdirectory, hpath, if_pos hslash, takeWhile_slash hname]

/-- The next component and the slash behind it are part of the name. -/
theorem subBase_begins (hin : inLevel base ce = true) (h : subdirectory base ce = some name) :
    47 ∉ name ∧ subBase base name <+: ce.name := by
  obtain ⟨-, path, hpath⟩ := inLevel_iff.mp hin
  rw [subdirectory, ← hpath, drop_left] at h
  split at h
  · rename_i hmem
    obtain ⟨dir, rest, rfl, hdir⟩ := eq_append_cons_of_mem (contains_iff_mem.mp hmem)
    rw [takeWhile_slash hdir] at h
    obtain rfl := Option.some.inj h
    refine ⟨hdir, rest, ?_⟩
    rw [← hpath, subBase, append_assoc, append_assoc, singleton_append]
  · cases h

/-- An entry with a next component is below that directory, unless its name ends there. -/
theorem inLevel_subBase (hce : ce.name.getLast? ≠ some 47) (hin : inLevel base ce = true)
    (h : subdirectory base ce = some name) : 47 ∉ name ∧ inLevel (subBase base name) ce = true := by
  obtain ⟨hname, hcommon⟩ := subBase_begins hin h
  refine ⟨hname, inLevel_iff.mpr ⟨lt_of_le_of_ne hcommon.length_le fun heq => ?_, hcommon⟩⟩
  rw [← hcommon.eq_of_length heq, subBase, getLast?_append] at hce
  exact hce rfl

/-- The directories of a level do not overlap. -/
theorem inLevel_subBase_unique {name' : Name} (hname : 47 ∉ name) (hname' : 47 ∉ name')
    (h : inLevel (subBase base name) ce = true) (h' : inLevel (subBase base name') ce = true) :
    name = name' :=
  Option.some.inj ((subdirectory_of_inLevel hname h).symm.trans (subdirectory_of_inLevel hname' h'))

end Level

/-! ## Sorted entries -/

/-- The entries are sorted by their names. -/
def Sorted (entries : List CacheEntry) : Prop := entries.Pairwise fun a b => a.name < b.name

/-- **The entries below a directory stand together**: in a sorted list that starts with one of them,
none comes after one that is not. -/
theorem Sorted.inLevel_block {base : Name} {entries : List CacheEntry} {ce : CacheEntry}
    (hsorted : Sorted (ce :: entries)) (hce : inLevel base ce = true) :
    ∃ group rest, entries = group ++ rest ∧ (∀ e ∈ ce :: group, inLevel base e = true) ∧
      ∀ e ∈ rest, inLevel base e = false := by
  refine ⟨entries.takeWhile (inLevel base), entries.dropWhile (inLevel base),
    takeWhile_append_dropWhile.symm, ?_, ?_⟩
  · exact forall_mem_cons.mpr ⟨hce, fun e he => mem_takeWhile_imp he⟩
  obtain ⟨hlt, htail⟩ := pairwise_cons.mp hsorted
  have hdrop : (entries.dropWhile (inLevel base)).Pairwise fun a b => a.name < b.name :=
    htail.sublist (dropWhile_sublist _)
  cases hrest : entries.dropWhile (inLevel base) with
  | nil => exact nofun
  | cons b rest =>
    have hmem : ∀ e ∈ b :: rest, e ∈ entries := fun e he =>
      (dropWhile_sublist _).subset (hrest ▸ he)
    have hb : inLevel base b = false := by
      have hhead := head?_dropWhile_not (inLevel base) entries
      rw [hrest] at hhead
      simpa using hhead
    intro e he
    rcases mem_cons.mp he with rfl | he
    · exact hb
    -- `b` stands between `ce` and `e`
    by_contra hcon
    rw [Bool.not_eq_false] at hcon
    have hce' := inLevel_iff.mp hce
    have hbe : b.name < e.name := by
      rw [hrest] at hdrop
      exact (pairwise_cons.mp hdrop).1 e he
    have hceb := hlt b (hmem b mem_cons_self)
    have hbetween := prefix_of_between hce'.2 (inLevel_iff.mp hcon).2 hceb.le hbe.le
    have hlen : base.length < b.name.length := by
      refine lt_of_le_of_ne hbetween.length_le fun heq => ?_
      have hbase : base = b.name := hbetween.eq_of_length heq
      exact absurd (prefix_le hce'.2) (not_le.mpr (hbase ▸ hceb))
    rw [inLevel_iff.mpr ⟨hlen, hbetween⟩] at hb
    cases hb

/-- The entries of a directory, one by one or directory by directory. -/
inductive Blocks (base : Name) : List CacheEntry → Prop
  | nil : Blocks base []
  | file {ce : CacheEntry} {entries : List CacheEntry} (hin : inLevel base ce = true)
    (hfile : subdirectory base ce = none) (hrest : Blocks base entries) :
    Blocks base (ce :: entries)
  | dir {name : Name} {ce : CacheEntry} {group entries : List CacheEntry} (hname : 47 ∉ name)
    (hgroup : ∀ e ∈ ce :: group, inLevel (subBase base name) e = true)
    (hother : ∀ e ∈ entries, inLevel (subBase base name) e = false)
    (hrest : Blocks base entries) : Blocks base (ce :: group ++ entries)

/-- A sorted list of entries of a directory consists of blocks. -/
theorem Sorted.blocks {base : Name} {entries : List CacheEntry} (hsorted : Sorted entries)
    (hname : ∀ e ∈ entries, e.name.getLast? ≠ some 47)
    (hin : ∀ e ∈ entries, inLevel base e = true) : Blocks base entries := by
  induction hlen : entries.length using Nat.strong_induction_on generalizing entries with
  | _ n ih =>
    cases entries with
    | nil => exact .nil
    | cons ce entries =>
      cases hsub : subdirectory base ce with
      | none =>
        refine .file (hin ce mem_cons_self) hsub (ih entries.length ?_ ?_ ?_ ?_ rfl)
        · grind
        · exact (pairwise_cons.mp hsorted).2
        · exact (forall_mem_cons.mp hname).2
        · exact (forall_mem_cons.mp hin).2
      | some name =>
        obtain ⟨hslash, hce⟩ := inLevel_subBase (hname ce mem_cons_self) (hin ce mem_cons_self) hsub
        obtain ⟨group, rest, rfl, hgroup, hother⟩ := hsorted.inLevel_block hce
        have hmem : ∀ e ∈ rest, e ∈ ce :: (group ++ rest) := fun e he =>
          mem_cons_of_mem _ (mem_append_right _ he)
        refine .dir hslash hgroup hother (ih rest.length ?_ ?_ ?_ ?_ rfl)
        · rw [← hlen, length_cons, length_append]
          omega
        · exact (pairwise_append.mp (pairwise_cons.mp hsorted).2).2.1
        · exact fun e he => hname e (hmem e he)
        · exact fun e he => hin e (hmem e he)

/-! ## The tree object of a directory -/

/-- The entries below a directory. -/
def beneath (base : Name) (entries : List CacheEntry) : List CacheEntry := entries.filter (inLevel base)

/-- The other entries. -/
def outside (base : Name) (entries : List CacheEntry) : List CacheEntry :=
  entries.filter fun e => !inLevel base e

/-- How much of the names of some entries is behind a directory. -/
def weight (base : Name) (entries : List CacheEntry) : Nat :=
  (entries.map fun ce => ce.name.length + 1 - base.length + 1).sum

theorem weight_cons (base : Name) (ce : CacheEntry) (entries : List CacheEntry) :
    weight base (ce :: entries) = ce.name.length + 1 - base.length + 1 + weight base entries := by
  rw [weight, map_cons, sum_cons, weight]

theorem weight_filter_le {base base' : Name} (hle : base.length ≤ base'.length)
    (p : CacheEntry → Bool) (entries : List CacheEntry) :
    weight base' (entries.filter p) ≤ weight base entries := by
  induction entries with
  | nil => exact le_rfl
  | cons ce entries ih =>
    rw [filter_cons]
    split
    · rw [weight_cons, weight_cons]
      omega
    · rw [weight_cons]
      omega

/-- Less is left behind a longer directory. -/
theorem weight_below_lt {base base' : Name} (hlt : base.length < base'.length) (ce : CacheEntry)
    (entries : List CacheEntry) : weight base' (beneath base' (ce :: entries)) <
      weight base (ce :: entries) := by
  have hrest := weight_filter_le hlt.le (inLevel base') entries
  rw [beneath, filter_cons, weight_cons]
  split
  · rename_i hin
    have hlen := (inLevel_iff.mp hin).1
    rw [weight_cons]
    omega
  · omega

/-- **The tree object of some entries of a directory**, with one item for each file and for each
directory. -/
def treeBytes (hashTree : List UInt8 → Oid) (base : Name) : List CacheEntry → List UInt8
  | [] => []
  | ce :: entries =>
    match subdirectory base ce with
    | none =>
      treeItem ce.mode.toNat (ce.name.drop base.length) ce.oid ++ treeBytes hashTree base entries
    | some name =>
      treeItem sIfdir name (hashTree (treeBytes hashTree (subBase base name)
          (beneath (subBase base name) (ce :: entries)))) ++
        treeBytes hashTree base (outside (subBase base name) entries)
  termination_by entries => weight base entries
  decreasing_by
    · rw [weight_cons]
      omega
    · exact weight_below_lt (by rw [length_subBase]; omega) ce entries
    rw [weight_cons]
    have hle : weight base (outside (subBase base name) entries) ≤ weight base entries :=
      weight_filter_le le_rfl _ entries
    omega

section TreeBytes

variable {hashTree : List UInt8 → Oid} {base name : Name} {ce : CacheEntry}
  {group entries : List CacheEntry}

section

variable (hgroup : ∀ e ∈ group, inLevel base e = true)
  (hother : ∀ e ∈ entries, inLevel base e = false)

include hgroup hother

/-- The entries of a block. -/
theorem below_block : beneath base (group ++ entries) = group := by
  rw [beneath, filter_append, filter_eq_self.mpr hgroup, filter_eq_nil_iff.mpr, append_nil]
  intro e he
  rw [hother e he]
  decide

/-- The entries behind it. -/
theorem outside_block : outside base (group ++ entries) = entries := by
  rw [outside, filter_append, filter_eq_nil_iff.mpr, nil_append, filter_eq_self.mpr]
  · intro e he
    rw [hother e he]
    rfl
  · intro e he
    rw [hgroup e he]
    decide

end

theorem treeBytes_dir (hname : 47 ∉ name)
    (hgroup : ∀ e ∈ ce :: group, inLevel (subBase base name) e = true)
    (hother : ∀ e ∈ entries, inLevel (subBase base name) e = false) :
    treeBytes hashTree base (ce :: group ++ entries) =
      treeItem sIfdir name (hashTree (treeBytes hashTree (subBase base name) (ce :: group))) ++
        treeBytes hashTree base entries := by
  have hsub := subdirectory_of_inLevel hname (hgroup ce mem_cons_self)
  have hrest := outside_block (forall_mem_cons.mp hgroup).2 hother
  rw [cons_append, treeBytes, hsub]
  dsimp only
  rw [hrest, ← cons_append, below_block hgroup hother]

end TreeBytes

end GitCore.CacheTree
