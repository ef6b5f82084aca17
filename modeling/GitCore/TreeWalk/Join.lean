import GitCore.Lib.PrefixOrder
import GitCore.TreeWalk.Traverse
import Mathlib.Data.List.Dedup
import Mathlib.Data.List.Perm.Subperm

/-! # Walking trees in parallel is a full outer join

With a callback that takes all it is given, `traverse_trees` passes every name of the trees to it
once, with the entries of all trees that have the name. A directory that is hidden behind other
entries of its tree is found by looking ahead, since nothing but names that begin with its own, and
go on with a byte below the slash, can stand between the places of a file and a directory of one
name.

The callback returns its mask in an `int`. So this holds for up to 31 trees (or 32, if errors do not
end the walk), and for no more. -/

namespace GitCore.TreeWalk

open Nat List
open Index (Name nameCompare nameCompare_eq_lt nameCompare_eq_eq)

variable {first : Name} {done : List Name} {entries : List NameEntry} {trees : List (List NameEntry)}

/-! ## The order of trees -/

/-- A tree as it is stored: in order, without two entries of one name, and with names that can be
parts of a path. -/
structure WellFormed (entries : List NameEntry) : Prop where
  sorted : entries.Pairwise fun a b => baseNameCompare a.path a.mode b.path b.mode = .lt
  distinct : entries.Pairwise fun a b => a.path ≠ b.path
  name : ∀ e ∈ entries, e.path ≠ [] ∧ 0 ∉ e.path ∧ 47 ∉ e.path

/-- What a tree is ordered by. -/
def NameEntry.treeKey (e : NameEntry) : List UInt8 := e.path ++ if e.isDirectory then [47] else []

theorem NameEntry.treeKey_eq (e : NameEntry) (n : Nat) :
    e.treeKey = e.path.take n ++ (e.path.drop n ++ if e.isDirectory then [47] else []) := by
  rw [← append_assoc, take_append_drop]
  rfl

section Order

variable {a b : NameEntry}

/-- What is behind the common length decides. -/
theorem byteBehind_lt {s t : List UInt8} {d e : Bool} (hs : 0 ∉ s) (ht : 0 ∉ t)
    (h : (if s.getD 0 0 = 0 ∧ d = true then 47 else s.getD 0 0) <
      if t.getD 0 0 = 0 ∧ e = true then (47 : UInt8) else t.getD 0 0) :
    (s ++ if d then [47] else []) < t ++ if e then [47] else [] := by
  have hbyte : ∀ (u : List UInt8) (f : Bool), 0 ∉ u →
      (u ++ if f then [47] else []) = [] ∧ (if u.getD 0 0 = 0 ∧ f = true then 47 else u.getD 0 0) = 0 ∨
        ∃ c rest, (u ++ if f then [47] else []) = c :: rest ∧ 0 < c ∧
          (if u.getD 0 0 = 0 ∧ f = true then 47 else u.getD 0 0) = c := by
    intro u f hu
    cases u with
    | nil =>
      grind
    | cons c u =>
      grind
  rcases hbyte s d hs with ⟨hsnil, hszero⟩ | ⟨c, srest, hscons, -, hsbyte⟩
  · rcases hbyte t e ht with ⟨-, htzero⟩ | ⟨c', trest, htcons, -, -⟩
    · rw [hszero, htzero] at h
      exact absurd h (lt_irrefl _)
    · rw [hsnil, htcons]
      exact nil_lt_cons c' trest
  · rcases hbyte t e ht with ⟨-, htzero⟩ | ⟨c', trest, htcons, -, htbyte⟩
    · grind
    · rw [hsbyte, htbyte] at h
      rw [hscons, htcons, cons_lt_cons_iff]
      exact .inl h

/-- **The order of `base_name_compare`** is that of the names with a slash behind directories. -/
theorem treeKey_lt (ha : 0 ∉ a.path) (hb : 0 ∉ b.path)
    (h : baseNameCompare a.path a.mode b.path b.mode = .lt) : a.treeKey < b.treeKey := by
  have hlen : (a.path.take (min a.path.length b.path.length)).length =
      (b.path.take (min a.path.length b.path.length)).length := by
    simp only [length_take]
    omega
  have hdropa : 0 ∉ a.path.drop (min a.path.length b.path.length) :=
    fun hmem => ha (mem_of_mem_drop hmem)
  have hdropb : 0 ∉ b.path.drop (min a.path.length b.path.length) :=
    fun hmem => hb (mem_of_mem_drop hmem)
  rw [a.treeKey_eq (min a.path.length b.path.length), b.treeKey_eq (min a.path.length b.path.length)]
  rw [baseNameCompare] at h
  dsimp only at h
  split at h
  · next hlt =>
    -- the names differ before the shorter one ends
    have hlt' := nameCompare_eq_lt.mp hlt
    refine append_lt_append_of_diverge hlt' (fun hpre => ?_) _ _
    exact hlt'.ne (hpre.eq_of_length hlen)
  · cases h
  · next heq =>
    rw [nameCompare_eq_eq.mp heq, append_lt_append_left_iff]
    refine byteBehind_lt hdropa hdropb ?_
    split_ifs at h with hbyte
    simpa [byteBehind, NameEntry.isDirectory] using hbyte

/-- **What `check_entry_match` rules out is not behind the entry it looks at.** -/
theorem ne_of_absent (hb : 47 ∉ b.path) (hlt : b.treeKey < a.treeKey)
    (h : checkEntryMatch first b.path = .absent) : a.path ≠ first := by
  rintro rfl
  rw [checkEntryMatch] at h
  split at h
  · cases h
  · cases h
  next hcmp =>
  have hless := nameCompare_eq_lt.mp hcmp
  split_ifs at h with hhidden
  by_cases hpre : a.path <+: b.path
  · -- the name goes on with a byte above the slash
    obtain ⟨rest, hrest⟩ := hpre
    cases rest with
    | nil =>
      rw [append_nil] at hrest
      exact hless.ne hrest
    | cons c rest =>
      have hc : 47 < c := by
        by_contra hle
        have hne : c ≠ 47 := by
          rintro rfl
          exact hb (hrest ▸ by simp)
        refine hhidden ⟨?_, ?_, .inl ?_⟩
        · rw [← hrest, length_append, length_cons]
          omega
        · rw [← hrest, take_left]
        · rw [← hrest, getD_append_right _ _ _ _ le_rfl, Nat.sub_self, getD_cons_zero]
          exact lt_of_le_of_ne (not_lt.mp hle) hne
      refine lt_asymm hlt ?_
      rw [NameEntry.treeKey, NameEntry.treeKey, ← hrest, append_assoc, append_lt_append_left_iff]
      split
      · rw [cons_append, cons_lt_cons_iff]
        exact .inl hc
      · rw [cons_append]
        exact nil_lt_cons _ _
  · exact lt_asymm hlt (append_lt_append_of_diverge hless hpre _ _)

end Order

/-! ## Looking for a name in one tree -/

/-- The entry with a name, and its position counted from `pos`. -/
def locate (first : Name) : Nat → List NameEntry → Option Found
  | _, [] => none
  | pos, a :: rest => if a.path = first then some (pos, a) else locate first (pos + 1) rest

section Locate

variable {pos : Nat}

theorem map_snd_locate (first : Name) (pos : Nat) (entries : List NameEntry) :
    (locate first pos entries).map Prod.snd = entries.find? fun e => e.path = first := by
  fun_induction locate first pos entries with
  | case1 => rfl
  | case2 pos a rest h => simp [h]
  | case3 pos a rest h ih => simp [h, ih]

theorem locate_eq_none :
    locate first pos entries = none ↔ ∀ e ∈ entries, e.path ≠ first := by
  rw [← Option.map_eq_none_iff, map_snd_locate, find?_eq_none]
  simp

/-- What is located stands there and has the name. -/
theorem locate_eq_some {a : Found} (h : locate first pos entries = some a) :
    pos ≤ a.1 ∧ entries[a.1 - pos]? = some a.2 ∧ a.2.path = first := by
  fun_induction locate first pos entries with
  | case1 => cases h
  | case2 pos e rest hname =>
    grind
  | case3 pos e rest hname ih =>
    obtain ⟨hle, hget, hpath⟩ := ih h
    refine ⟨by omega, ?_, hpath⟩
    rw [show a.1 - pos = a.1 - (pos + 1) + 1 by omega, getElem?_cons_succ]
    exact hget

/-- The look-ahead starts behind entries of other names. -/
theorem locate_drop {n : Nat} (h : ∀ p e, p < n → entries[p]? = some e → e.path ≠ first) :
    locate first (pos + n) (entries.drop n) = locate first pos entries := by
  induction n generalizing pos entries with
  | zero => rfl
  | succ n ih =>
    cases entries with
    | nil => rfl
    | cons e rest =>
      have hne := h 0 e (succ_pos n) rfl
      have hrest := @ih rest (pos + 1) fun p e' hp hget => h (p + 1) e' (succ_lt_succ hp) hget
      rw [drop_succ_cons, locate, if_neg hne, ← hrest]
      exact congrArg (fun k => locate first k _) (by omega)

theorem checkEntryMatch_eq_same {b : Name} : checkEntryMatch first b = .same ↔ b = first := by
  rw [eq_comm (a := b), ← nameCompare_eq_eq, checkEntryMatch]
  grind

/-- **The look-ahead finds the name** in a well-formed tree. -/
theorem probe_eq_locate (h : WellFormed entries) (pos : Nat) :
    probe first pos entries = locate first pos entries := by
  induction entries generalizing pos with
  | nil => rfl
  | cons b rest ih =>
    have hsorted := pairwise_cons.mp h.sorted
    have hrest : WellFormed rest := ⟨hsorted.2, (pairwise_cons.mp h.distinct).2,
      (forall_mem_cons.mp h.name).2⟩
    rw [probe, locate]
    cases hmatch : checkEntryMatch first b.path with
    | same => rw [if_pos (checkEntryMatch_eq_same.mp hmatch)]
    | keepLooking =>
      rw [if_neg (by simp [← checkEntryMatch_eq_same, hmatch])]
      exact ih hrest (pos + 1)
    | absent =>
      -- neither here nor behind
      rw [if_neg (by simp [← checkEntryMatch_eq_same, hmatch])]
      refine (locate_eq_none.mpr fun a ha => ?_).symm
      have hb := h.name b mem_cons_self
      have ha' := h.name a (mem_cons_of_mem b ha)
      exact ne_of_absent hb.2.2 (treeKey_lt hb.2.1 ha'.2.1 (hsorted.1 a ha)) hmatch

theorem WellFormed.drop (h : WellFormed entries) (n : Nat) : WellFormed (entries.drop n) where
  sorted := h.sorted.sublist (drop_sublist n entries)
  distinct := h.distinct.sublist (drop_sublist n entries)
  name e he := h.name e (mem_of_mem_drop he)

/-- A name occurs once in a tree. -/
theorem WellFormed.pos_eq (h : WellFormed entries) {p q : Nat} {e e' : NameEntry}
    (hp : entries[p]? = some e) (hq : entries[q]? = some e') (hpath : e.path = e'.path) : p = q := by
  have hnodup : (entries.map NameEntry.path).Nodup := pairwise_map.mpr h.distinct
  have hlt := (List.getElem?_eq_some_iff.mp hp).1
  refine (getElem?_inj (by rwa [length_map]) hnodup).mp ?_
  rw [getElem?_map, getElem?_map, hp, hq, Option.map_some, Option.map_some, hpath]

end Locate

/-! ## The state of one tree -/

/-- **The invariant of a tree**: the entries before the position and those to be skipped are the ones
whose names were passed to the callback. -/
structure TreeInv (done : List Name) (entries : List NameEntry) (t : TreeDescX) : Prop where
  entries_eq : t.entries = entries
  pos_le : t.pos ≤ entries.length
  returned : ∀ p e, entries[p]? = some e → (p < t.pos ∨ p ∈ t.skip ↔ e.path ∈ done)

section TreeInv

variable {t : TreeDescX}

/-- Passing over the entries to be skipped ends at one that is not, or at the end. -/
theorem passSkipped_spec {skip : List Nat} {size fuel pos : Nat} (hfuel : size ≤ pos + fuel)
    (hpos : pos ≤ size) :
    pos ≤ passSkipped skip size fuel pos ∧ passSkipped skip size fuel pos ≤ size ∧
      (∀ p, pos ≤ p → p < passSkipped skip size fuel pos → p ∈ skip) ∧
      (passSkipped skip size fuel pos < size → passSkipped skip size fuel pos ∉ skip) := by
  induction fuel generalizing pos with
  | zero => exact ⟨le_rfl, hpos, fun p hle hlt => absurd hlt (not_lt.mpr hle),
      fun hlt => absurd hlt (by rw [passSkipped]; omega)⟩
  | succ fuel ih =>
    rw [passSkipped]
    split_ifs with hskip
    · obtain ⟨hle, hsize, hall, hend⟩ := @ih (pos + 1) (by omega) hskip.1
      refine ⟨by omega, hsize, fun p hp hlt => ?_, hend⟩
      rcases eq_or_lt_of_le hp with rfl | hgt
      · exact contains_iff_mem.mp hskip.2
      · exact hall p hgt hlt
    · refine ⟨le_rfl, hpos, fun p hle hlt => absurd hlt (not_lt.mpr hle), fun hlt hmem => ?_⟩
      exact hskip ⟨hlt, contains_iff_mem.mpr hmem⟩

/-- After passing over, the invariant holds as before, and the current entry was not passed to the
callback. -/
theorem TreeInv.advance (h : TreeInv done entries t) :
    TreeInv done entries t.advance ∧
      ∀ e, entries[t.advance.pos]? = some e → e.path ∉ done := by
  have hpos : t.pos ≤ t.entries.length := h.entries_eq ▸ h.pos_le
  obtain ⟨hle, hsize, hall, hend⟩ := @passSkipped_spec t.skip t.entries.length
    (t.entries.length - t.pos) t.pos (by omega) hpos
  have hreturned : ∀ p e, entries[p]? = some e →
      (p < t.advance.pos ∨ p ∈ t.advance.skip ↔ e.path ∈ done) := by
    intro p e hget
    rw [← h.returned p e hget]
    constructor
    · rintro (hlt | hmem)
      · by_cases hp : p < t.pos
        · exact .inl hp
        · exact .inr (hall p (not_lt.mp hp) hlt)
      · exact .inr hmem
    · rintro (hlt | hmem)
      · exact .inl (hlt.trans_le hle)
      · exact .inr hmem
  refine ⟨⟨h.entries_eq, h.entries_eq ▸ hsize, hreturned⟩, fun e hget => ?_⟩
  have hlt : t.advance.pos < t.entries.length := by
    rw [h.entries_eq]
    exact (List.getElem?_eq_some_iff.mp hget).1
  rw [← hreturned _ e hget, not_or]
  exact ⟨lt_irrefl _, hend hlt⟩

/-- There is nothing to pass over at an entry that was not passed to the callback. -/
theorem advance_advance (h : TreeInv done entries t) : t.advance.advance = t.advance := by
  have hpos : t.pos ≤ t.entries.length := h.entries_eq ▸ h.pos_le
  obtain ⟨-, hsize, -, hend⟩ := @passSkipped_spec t.skip t.entries.length
    (t.entries.length - t.pos) t.pos (by omega) hpos
  have hstay : ∀ fuel, passSkipped t.skip t.entries.length fuel t.advance.pos = t.advance.pos := by
    intro fuel
    cases fuel with
    | zero => rfl
    | succ fuel =>
      rw [passSkipped, if_neg]
      rintro ⟨hlt, hskip⟩
      exact hend hlt (contains_iff_mem.mp hskip)
  show TreeDescX.mk _ _ _ = TreeDescX.mk _ _ _
  congr 1
  exact hstay _

/-- The second search of a round is the look-ahead from the current entry on. -/
theorem extendedEntryExtract_some (t : TreeDescX) (first : Name) :
    extendedEntryExtract t (some first) =
      (t.advance, probe first t.advance.pos (t.advance.entries.drop t.advance.pos)) := by
  unfold extendedEntryExtract TreeDescX.current
  dsimp only
  cases hget : t.advance.entries[t.advance.pos]? with
  | none =>
    have hlen := getElem?_eq_none_iff.mp hget
    rw [drop_of_length_le hlen]
    rfl
  | some a =>
    obtain ⟨hlt, rfl⟩ := List.getElem?_eq_some_iff.mp hget
    rw [List.drop_eq_getElem_cons hlt, Option.map_some]
    cases hmatch : checkEntryMatch first t.advance.entries[t.advance.pos].path <;>
      simp [probe, hmatch]

/-- **The entry of a name that was not passed to the callback is found.** -/
theorem TreeInv.extract_named (h : TreeInv done entries t) (hwf : WellFormed entries)
    (hfirst : first ∉ done) :
    extendedEntryExtract t (some first) = (t.advance, locate first 0 entries) := by
  obtain ⟨hadv, -⟩ := h.advance
  have hbefore : ∀ p e, p < t.advance.pos → entries[p]? = some e → e.path ≠ first := by
    rintro p e hlt hget rfl
    exact hfirst ((hadv.returned p e hget).mp (.inl hlt))
  rw [extendedEntryExtract_some, hadv.entries_eq, probe_eq_locate (hwf.drop _),
    ← locate_drop hbefore, zero_add]

/-- A tree without the name is left alone. -/
theorem TreeInv.of_none (h : TreeInv done entries t) (hnone : locate first 0 entries = none) :
    TreeInv (done ++ [first]) entries t := by
  refine ⟨h.entries_eq, h.pos_le, fun p e hget => ?_⟩
  have hne := locate_eq_none.mp hnone e (mem_of_getElem? hget)
  rw [h.returned p e hget, mem_append, mem_singleton, or_iff_left hne]

/-- A tree with the name gets behind its entry, or skips it later. -/
theorem TreeInv.update (h : TreeInv done entries t) (hwf : WellFormed entries) {a : Found}
    (hsome : locate first 0 entries = some a) :
    TreeInv (done ++ [first]) entries (updateExtendedEntry t a) := by
  obtain ⟨-, hat, hpath⟩ := locate_eq_some hsome
  rw [Nat.sub_zero] at hat
  have hkey : ∀ p e, entries[p]? = some e → (e.path ∈ done ++ [first] ↔ e.path ∈ done ∨ p = a.1) := by
    intro p e hget
    rw [mem_append, mem_singleton]
    refine or_congr_right ⟨fun hname => hwf.pos_eq hget hat (hname.trans hpath.symm), ?_⟩
    grind
  rw [updateExtendedEntry]
  split_ifs with hpos
  · refine ⟨h.entries_eq, ?_, fun p e hget => ?_⟩
    · grind
    · rw [hkey p e hget, ← h.returned p e hget, Nat.lt_succ_iff_lt_or_eq, ← hpos]
      exact or_right_comm
  · refine ⟨h.entries_eq, h.pos_le, fun p e hget => ?_⟩
    rw [hkey p e hget, ← h.returned p e hget, mem_cons, or_assoc]
    exact or_congr_right or_comm

end TreeInv

/-! ## Several trees -/

/-- **The call for a name**: the entries of this name in the trees, and the trees that have it. -/
def callFor (trees : List (List NameEntry)) (name : Name) : Call :=
  let entry := trees.map fun entries => entries.find? fun e => e.path = name
  { mask := maskOf (entry.map Option.isSome)
    dirmask := maskOf (entry.map fun e => e.any NameEntry.isDirectory)
    entry := entry }

theorem maskOf_lt (l : List Bool) : maskOf l < 2 ^ l.length := by
  induction l with
  | nil => exact one_pos
  | cons b rest ih =>
    rw [maskOf, length_cons, pow_succ]
    split <;> omega

theorem maskOf_cons_mod (b : Bool) (rest : List Bool) : maskOf (b :: rest) % 2 = if b then 1 else 0 := by
  rw [maskOf]
  split <;> omega

theorem maskOf_cons_div (b : Bool) (rest : List Bool) : maskOf (b :: rest) / 2 = maskOf rest := by
  rw [maskOf]
  split <;> omega

section Trees

variable {tx : List TreeDescX}

/-- The call for the located entries is the one for the name. -/
theorem callOf_locate (trees : List (List NameEntry)) (first : Name) :
    callOf (trees.map (locate first 0)) = callFor trees first := by
  have hentry : (trees.map (locate first 0)).map (Option.map Prod.snd) =
      trees.map fun entries => entries.find? fun e => e.path = first := by
    rw [map_map]
    exact map_congr_left fun entries _ => map_snd_locate first 0 entries
  simp only [callOf, callFor, ← hentry, map_map]
  congr 2
  all_goals
    apply map_congr_left
    intro entries _
    cases h : locate first 0 entries <;> simp [h]

/-- **One round updates the trees that have the name**, and the invariant holds with the name. -/
theorem updateTrees_inv (hwf : ∀ entries ∈ trees, WellFormed entries)
    (h : List.Forall₂ (TreeInv done) trees tx) :
    List.Forall₂ (TreeInv (done ++ [first])) trees
      (updateTrees (maskOf ((trees.map (locate first 0)).map Option.isSome)) tx
        (trees.map (locate first 0))) := by
  induction h with
  | nil => exact List.Forall₂.nil
  | @cons entries t trees tx hinv _ ih =>
    have hrest := ih (forall_mem_cons.mp hwf).2
    rw [map_cons, map_cons]
    cases hloc : locate first 0 entries with
    | none =>
      rw [updateTrees, maskOf_cons_div]
      exact List.Forall₂.cons (hinv.of_none hloc) hrest
    | some a =>
      rw [updateTrees, maskOf_cons_div, maskOf_cons_mod]
      exact List.Forall₂.cons (hinv.update (hwf entries mem_cons_self) hloc) hrest

/-- After the first searches the trees stand at entries that were not passed to the callback. -/
theorem forall₂_advance (h : List.Forall₂ (TreeInv done) trees tx) :
    List.Forall₂ (fun entries t => TreeInv done entries t ∧ t.advance = t ∧
      ∀ e, entries[t.pos]? = some e → e.path ∉ done) trees (tx.map TreeDescX.advance) := by
  induction h with
  | nil => exact List.Forall₂.nil
  | cons hinv _ ih =>
    exact List.Forall₂.cons ⟨hinv.advance.1, advance_advance hinv, hinv.advance.2⟩ ih

/-- An entry gives a name, which was there before or is its own. -/
theorem earlier_some (acc : Option Name) (e : Found) :
    ∃ name, earlier acc (some e) = some name ∧ (acc = some name ∨ e.2.path = name) := by
  cases acc with
  | none => exact ⟨_, rfl, .inr rfl⟩
  | some first =>
    rw [earlier]
    grind

/-- A name was there at the beginning or is that of an entry; without a name there is no entry. -/
theorem foldl_earlier (entry : List (Option Found)) (acc : Option Name) :
    match entry.foldl earlier acc with
    | none => acc = none ∧ ∀ a ∈ entry, a = none
    | some first => acc = some first ∨ ∃ a, some a ∈ entry ∧ a.2.path = first := by
  induction entry generalizing acc with
  | nil => cases acc with
    | none => exact ⟨rfl, nofun⟩
    | some first => exact .inl rfl
  | cons e entry ih =>
    have hrest := ih (earlier acc e)
    rw [foldl_cons]
    generalize entry.foldl earlier (earlier acc e) = result at hrest ⊢
    cases e with
    | none => cases result with
      | none => exact ⟨hrest.1, forall_mem_cons.mpr ⟨rfl, hrest.2⟩⟩
      | some first => exact hrest.imp_right fun ⟨a, ha⟩ => ⟨a, mem_cons_of_mem none ha.1, ha.2⟩
    | some e =>
      obtain ⟨name, hname, hfrom⟩ := earlier_some acc e
      rw [hname] at hrest
      cases result with
      | none => cases hrest.1
      | some first =>
        rcases hrest with hsame | ⟨a, ha, hpath⟩
        · cases hsame
          exact hfrom.imp_right fun hpath => ⟨e, mem_cons_self, hpath⟩
        · exact .inr ⟨a, mem_cons_of_mem (some e) ha, hpath⟩

variable {entry : List (Option Found)}

/-- The least name is one of the names. -/
theorem firstName_eq_some (h : firstName entry = some first) :
    ∃ a, some a ∈ entry ∧ a.2.path = first := by
  have hspec := foldl_earlier entry none
  rw [← firstName, h] at hspec
  exact hspec.resolve_left nofun

/-- Without a name there is no entry. -/
theorem firstName_eq_none (h : firstName entry = none) : ∀ a ∈ entry, a = none := by
  have hspec := foldl_earlier entry none
  rw [← firstName, h] at hspec
  exact hspec.2

/-- The second search of a round, and the culling of other names, give the entries of the name. -/
theorem extractNamed_eq (hwf : ∀ entries ∈ trees, WellFormed entries) (hfirst : first ∉ done)
    (h : List.Forall₂ (fun entries t => TreeInv done entries t ∧ t.advance = t ∧
      ∀ e, entries[t.pos]? = some e → e.path ∉ done) trees tx) :
    (extractNamed first tx).map Prod.fst = tx ∧
      (extractNamed first tx).map Prod.snd = trees.map (locate first 0) := by
  induction h with
  | nil => exact ⟨rfl, rfl⟩
  | @cons entries t trees tx hinv _ ih =>
    obtain ⟨hfst, hsnd⟩ := ih (forall_mem_cons.mp hwf).2
    obtain ⟨hinv, hadv, -⟩ := hinv
    have hextract := hinv.extract_named (hwf entries mem_cons_self) hfirst
    have hcull : ((locate first 0 entries).filter fun a => nameCompare a.2.path first = .eq) =
        locate first 0 entries := by
      cases hloc : locate first 0 entries with
      | none => rfl
      | some a =>
        exact if_pos (decide_eq_true (nameCompare_eq_eq.mpr (locate_eq_some hloc).2.2))
    rw [extractNamed] at hfst hsnd ⊢
    grind

theorem forall₂_mem_left {α β : Type} {R : α → β → Prop} {l : List α} {m : List β}
    (h : List.Forall₂ R l m) {a : α} (ha : a ∈ l) : ∃ b ∈ m, R a b := by
  induction h with
  | nil => cases ha
  | @cons a' b l m hab _ ih =>
    rcases mem_cons.mp ha with rfl | ha
    · exact ⟨b, mem_cons_self, hab⟩
    · obtain ⟨b', hb', hR⟩ := ih ha
      exact ⟨b', mem_cons_of_mem b hb', hR⟩

/-- The round that calls the callback for a name. -/
def callRound (info : TraverseInfo) (trees : List (List NameEntry)) (first : Name)
    (st : TraverseState) : Bool × TraverseState :=
  let call := callFor trees first
  let treesUsed := info.fn call
  let st' : TraverseState :=
    { tx := st.tx.map TreeDescX.advance
      interesting := 2
      ret := if treesUsed < 0 then treesUsed else st.ret
      calls := st.calls ++ [call] }
  if treesUsed < 0 ∧ !info.showAllErrors then (false, st')
  else (true, { st' with
    tx := updateTrees (call.mask &&& toULong treesUsed) st'.tx (trees.map (locate first 0)) })

/-- **One round** either finds that all entries were passed to the callback, or calls it with the
entries of a name that was not. -/
theorem traverseRound_eq {info : TraverseInfo} {st : TraverseState} (hpathspec : info.pathspec = none)
    (hwf : ∀ entries ∈ trees, WellFormed entries) (h : List.Forall₂ (TreeInv done) trees st.tx) :
    ((∀ entries ∈ trees, ∀ e ∈ entries, e.path ∈ done) ∧
        traverseRound info st = (false, { st with tx := st.tx.map TreeDescX.advance })) ∨
      ∃ first, first ∉ done ∧ (∃ entries ∈ trees, ∃ e ∈ entries, e.path = first) ∧
        traverseRound info st = callRound info trees first st := by
  have hadv := forall₂_advance h
  have hfst : (st.tx.map fun t => extendedEntryExtract t none).map Prod.fst =
      st.tx.map TreeDescX.advance := map_map
  have hsnd : (st.tx.map fun t => extendedEntryExtract t none).map Prod.snd =
      (st.tx.map TreeDescX.advance).map TreeDescX.current := by
    rw [map_map, map_map]
    rfl
  cases hname : firstName ((st.tx.map TreeDescX.advance).map TreeDescX.current) with
  | none =>
    refine .inl ⟨fun entries hentries e he => ?_, ?_⟩
    · -- the tree is at its end, so all its entries were returned
      obtain ⟨t, ht, hinv, -, -⟩ := forall₂_mem_left hadv hentries
      have hnone := firstName_eq_none hname _ (mem_map_of_mem ht)
      rw [TreeDescX.current, Option.map_eq_none_iff, hinv.entries_eq, getElem?_eq_none_iff] at hnone
      obtain ⟨p, hp, rfl⟩ := mem_iff_getElem.mp he
      exact (hinv.returned p _ (getElem?_eq_getElem hp)).mp (.inl (hp.trans_le hnone))
    · unfold traverseRound
      dsimp only
      rw [hfst, hsnd, hname]
  | some first =>
    obtain ⟨a, ha, hpath⟩ := firstName_eq_some hname
    obtain ⟨t, ht, hcurrent⟩ := mem_map.mp ha
    obtain ⟨entries, hentries, hinv, -, hnew⟩ := forall₂_mem_left hadv.flip ht
    have hget : entries[t.pos]? = some a.2 := by
      rw [TreeDescX.current, hinv.entries_eq, Option.map_eq_some_iff] at hcurrent
      obtain ⟨e, hget, rfl⟩ := hcurrent
      exact hget
    have hfirst : first ∉ done := hpath ▸ hnew a.2 hget
    have hmem : a.2 ∈ entries := mem_of_getElem? hget
    obtain ⟨hnamed, hentry⟩ := extractNamed_eq hwf hfirst hadv
    refine .inr ⟨first, hfirst, ⟨entries, hentries, a.2, hmem, hpath⟩, ?_⟩
    have hlast : ((trees.map (locate first 0)).reverse.findSome? id).isSome := by
      rw [findSome?_isSome_iff]
      refine ⟨locate first 0 entries, mem_reverse.mpr (mem_map_of_mem hentries), ?_⟩
      rw [id, Option.isSome_iff_ne_none]
      exact fun hnone => locate_eq_none.mp hnone a.2 hmem hpath
    obtain ⟨e, he⟩ := Option.isSome_iff_exists.mp hlast
    have hprune : ∀ interesting, pruneTraversal info e.2 interesting = 2 := by
      intro interesting
      rw [pruneTraversal, hpathspec]
    unfold traverseRound
    dsimp only
    rw [hfst, hsnd, hname]
    dsimp only
    rw [hnamed, hentry, he, callOf_locate]
    dsimp only
    rw [hprune, if_neg (by decide), if_neg (by decide)]
    rfl

end Trees

/-! ## The whole walk -/

/-- The callback returns the mask it was given, as an `int`; there is no pathspec. -/
def fullMask (showAllErrors : Bool) : TraverseInfo where
  fn call := toInt32 call.mask
  showAllErrors := showAllErrors
  pathspec := none

/-- **The walk is a full outer join**: it ends, and every name of the trees is passed to the callback
once, with the entries of this name. -/
def Joins (info : TraverseInfo) (trees : List (List NameEntry)) : Prop :=
  ∃ fuel st, ∃ order : List Name, traverseTrees info fuel trees = some st ∧ order.Nodup ∧
    (∀ name, name ∈ order ↔ ∃ entries ∈ trees, ∃ e ∈ entries, e.path = name) ∧
    st.calls = order.map (callFor trees)

/-- The names of the trees. -/
def namesOf (trees : List (List NameEntry)) : List Name :=
  (trees.flatten.map NameEntry.path).dedup

section Walk

variable {showAllErrors : Bool}

theorem mem_namesOf {name : Name} :
    name ∈ namesOf trees ↔ ∃ entries ∈ trees, ∃ e ∈ entries, e.path = name := by
  rw [namesOf, mem_dedup, mem_map]
  simp only [mem_flatten]
  grind

/-- A mask of as many bits as there are trees. -/
theorem mask_callFor_lt (trees : List (List NameEntry)) (name : Name) :
    (callFor trees name).mask < 2 ^ trees.length := by
  have hlt := maskOf_lt ((trees.map fun entries => entries.find? fun e => e.path = name).map Option.isSome)
  rwa [length_map, length_map] at hlt

/-- Few enough trees for the mask to come back through an `int`. -/
def FitsInt (n : Nat) (showAllErrors : Bool) : Prop := n ≤ 31 ∨ n = 32 ∧ showAllErrors = true

/-- The callback takes all entries it was given. -/
theorem FitsInt.taken (h : FitsInt trees.length showAllErrors) (name : Name) :
    ¬ (toInt32 (callFor trees name).mask < 0 ∧ (!showAllErrors) = true) ∧
      (callFor trees name).mask &&& toULong (toInt32 (callFor trees name).mask) =
        (callFor trees name).mask := by
  have hlt := mask_callFor_lt trees name
  have hwide : (callFor trees name).mask < 2 ^ 32 := by
    refine hlt.trans_le (Nat.pow_le_pow_right Nat.two_pos ?_)
    rcases h with hle | ⟨heq, -⟩
    · exact hle.trans (by decide)
    · exact heq.le
  refine ⟨?_, and_toULong_toInt32 hwide⟩
  rintro ⟨hneg, hstop⟩
  rcases h with hle | ⟨-, hall⟩
  · rw [toInt32_of_lt (hlt.trans_le (Nat.pow_le_pow_right Nat.two_pos hle))] at hneg
    exact absurd hneg (Int.not_lt.mpr (Int.natCast_nonneg _))
  · rw [hall] at hstop
    cases hstop

/-- The loop goes on until all names were passed to the callback. -/
theorem traverseLoop_joins (hfits : FitsInt trees.length showAllErrors)
    (hwf : ∀ entries ∈ trees, WellFormed entries) {fuel : Nat}
    {st : TraverseState} (hfuel : (namesOf trees).length < done.length + fuel) (hnodup : done.Nodup)
    (hsub : done ⊆ namesOf trees) (h : List.Forall₂ (TreeInv done) trees st.tx)
    (hcalls : st.calls = done.map (callFor trees)) :
    ∃ st', ∃ order : List Name, traverseLoop (fullMask showAllErrors) fuel st = some st' ∧
      order.Nodup ∧
      (∀ name, name ∈ order ↔ name ∈ namesOf trees) ∧ st'.calls = order.map (callFor trees) := by
  induction fuel generalizing done st with
  | zero =>
    have hle := (hnodup.subperm hsub).length_le
    omega
  | succ fuel ih =>
    rw [traverseLoop]
    rcases @traverseRound_eq done trees (fullMask showAllErrors) st rfl hwf h with
      ⟨hall, hround⟩ | ⟨first, hfirst, hmem, hround⟩
    · rw [hround, if_neg Bool.false_ne_true]
      refine ⟨_, done, rfl, hnodup, fun name => ⟨fun hd => hsub hd, fun hn => ?_⟩, hcalls⟩
      obtain ⟨entries, hentries, e, he, rfl⟩ := mem_namesOf.mp hn
      exact hall entries hentries e he
    obtain ⟨hgoes, hmask⟩ := hfits.taken first
    have hinv := (forall₂_advance h).imp fun _ _ hadv => hadv.1
    have hnext := @updateTrees_inv first done trees _ hwf hinv
    have hcallMask : maskOf ((trees.map (locate first 0)).map Option.isSome) =
        (callFor trees first).mask := congrArg Call.mask (callOf_locate trees first)
    rw [hcallMask] at hnext
    rw [hround.trans (if_neg hgoes), if_pos rfl]
    refine @ih (done ++ [first]) _ ?_ ?_ ?_ (hmask.symm ▸ hnext) ?_
    · rw [length_append, length_singleton]
      omega
    · grind
    · intro name hname
      rcases mem_append.mp hname with hd | hs
      · exact hsub hd
      · rw [mem_singleton.mp hs]
        exact mem_namesOf.mpr hmem
    · rw [map_append, ← hcalls]
      rfl

/-- At the beginning nothing was passed to the callback. -/
theorem treeInv_init (trees : List (List NameEntry)) :
    List.Forall₂ (TreeInv []) trees (trees.map fun entries => ⟨entries, 0, []⟩) := by
  rw [forall₂_map_right_iff, forall₂_same]
  intro entries _
  exact ⟨rfl, zero_le _, fun p e _ => by simp⟩

/-- Up to 31 trees are joined. -/
theorem joins_of_fitsInt (hfits : FitsInt trees.length showAllErrors)
    (hwf : ∀ entries ∈ trees, WellFormed entries) : Joins (fullMask showAllErrors) trees := by
  obtain ⟨st, order, hloop, hnodup, hnames, hcalls⟩ := @traverseLoop_joins [] trees showAllErrors hfits
    hwf ((namesOf trees).length + 1)
    { tx := trees.map fun entries => ⟨entries, 0, []⟩, interesting := 1, ret := 0, calls := [] }
    (by simp) nodup_nil (nil_subset _) (treeInv_init trees) rfl
  exact ⟨_, st, order, hloop, hnodup, fun name => (hnames name).trans mem_namesOf, hcalls⟩

end Walk

/-! ## Too many trees -/

section TooMany

/-- A file with a name of one byte. -/
def fileNamed (c : UInt8) : NameEntry := ⟨[c], 0o100644, []⟩

/-- Trees of which only the one at position `i` has entries. -/
def lonely (i n : Nat) (entries : List NameEntry) : List (List NameEntry) :=
  List.replicate i [] ++ entries :: List.replicate (n - i - 1) []

variable {i n : Nat}

theorem length_lonely (h : i < n) (entries : List NameEntry) : (lonely i n entries).length = n := by
  simp only [lonely, length_append, length_replicate, length_cons]
  omega

theorem mem_lonely {tree : List NameEntry} (h : tree ∈ lonely i n entries) :
    tree = [] ∨ tree = entries := by
  rcases mem_append.mp h with hmem | hmem
  · exact .inl (mem_replicate.mp hmem).2
  grind

theorem wellFormed_pair : WellFormed [fileNamed 97, fileNamed 98] where
  sorted := by decide +kernel
  distinct := by decide
  name := by decide

theorem wellFormed_lonely (i n : Nat) (h : WellFormed entries) :
    ∀ tree ∈ lonely i n entries, WellFormed tree := by
  intro tree htree
  rcases mem_lonely htree with rfl | rfl
  · exact ⟨.nil, .nil, forall_mem_nil _⟩
  · exact h

theorem maskOf_replicate_append (i : Nat) (l : List Bool) :
    maskOf (List.replicate i false ++ l) = 2 ^ i * maskOf l := by
  induction i with
  | zero => rw [pow_zero, one_mul, replicate_zero, nil_append]
  | succ i ih =>
    rw [replicate_succ, cons_append, maskOf, ih, pow_succ]
    grind

/-- Only the bit of the one tree is set. -/
theorem mask_callFor_lonely {e : NameEntry} (he : e ∈ entries) :
    (callFor (lonely i n entries) e.path).mask = 2 ^ i := by
  have hfound : (entries.find? fun e' => e'.path = e.path).isSome = true := by
    rw [find?_isSome]
    exact ⟨e, he, decide_eq_true rfl⟩
  have hrest : maskOf (List.replicate (n - i - 1) false) = 0 := by
    have := maskOf_replicate_append (n - i - 1) []
    rwa [append_nil, maskOf, mul_zero] at this
  rw [callFor, lonely]
  simp only [map_append, map_replicate, map_cons, find?_nil, Option.isSome_none, hfound]
  rw [maskOf_replicate_append, maskOf, hrest, if_pos rfl, mul_zero, add_zero, mul_one]

theorem updateTrees_zero (tx : List TreeDescX) (entry : List (Option Found)) :
    updateTrees 0 tx entry = tx := by
  induction tx generalizing entry with
  | nil => cases entry <;> rfl
  | cons t tx ih =>
    cases entry with
    | nil => rfl
    | cons a entry =>
      cases a with
      | none => rw [updateTrees, Nat.zero_div, ih]
      | some a => rw [updateTrees, Nat.zero_div, ih, if_neg (by decide)]

/-- The first round is for a name of the one tree. -/
theorem traverseRound_lonely (hne : entries ≠ [])
    (hwf : WellFormed entries) {info : TraverseInfo} {st : TraverseState}
    (hpathspec : info.pathspec = none) (h : List.Forall₂ (TreeInv []) (lonely i n entries) st.tx) :
    ∃ first, (callFor (lonely i n entries) first).mask = 2 ^ i ∧
      traverseRound info st = callRound info (lonely i n entries) first st := by
  obtain ⟨e, he⟩ := exists_mem_of_ne_nil entries hne
  rcases traverseRound_eq hpathspec (wellFormed_lonely i n hwf) h with
    ⟨hall, -⟩ | ⟨first, -, ⟨tree, htree, e', he', rfl⟩, hround⟩
  · exact absurd (hall entries (by simp [lonely]) e he) not_mem_nil
  refine ⟨e'.path, ?_, hround⟩
  rcases mem_lonely htree with rfl | rfl
  · exact absurd he' not_mem_nil
  · exact mask_callFor_lonely he'

/-- If the bit is negative as an `int`, the walk ends with the first call. -/
theorem traverseTrees_lonely_stops (hne : entries ≠ []) (hwf : WellFormed entries)
    (hneg : toInt32 (2 ^ i) < 0) {fuel : Nat} {st : TraverseState}
    (hrun : traverseTrees (fullMask false) fuel (lonely i n entries) = some st) :
    st.calls.length = 1 := by
  cases fuel with
  | zero => cases hrun
  | succ fuel =>
    obtain ⟨first, hmask, hround⟩ := @traverseRound_lonely entries i n hne hwf (fullMask false)
      { tx := (lonely i n entries).map fun entries => ⟨entries, 0, []⟩
        interesting := 1, ret := 0, calls := [] } rfl (treeInv_init _)
    have hused : (fullMask false).fn (callFor (lonely i n entries) first) < 0 := by
      show toInt32 _ < 0
      rw [hmask]
      exact hneg
    rw [traverseTrees, traverseLoop, hround.trans (if_pos ⟨hused, rfl⟩), if_neg Bool.false_ne_true] at hrun
    rw [← Option.some.inj hrun]
    rfl

/-- If the bit is lost in an `int`, no tree is ever updated, and the walk does not end. -/
theorem traverseTrees_lonely_loops (hne : entries ≠ []) (hwf : WellFormed entries)
    (hzero : toInt32 (2 ^ i) = 0) (showAllErrors : Bool) (fuel : Nat) :
    traverseTrees (fullMask showAllErrors) fuel (lonely i n entries) = none := by
  have hloop : ∀ st : TraverseState, List.Forall₂ (TreeInv []) (lonely i n entries) st.tx →
      traverseLoop (fullMask showAllErrors) fuel st = none := by
    induction fuel with
    | zero => exact fun st _ => rfl
    | succ fuel ih =>
      intro st hst
      obtain ⟨first, hmask, hround⟩ := @traverseRound_lonely entries i n hne hwf
        (fullMask showAllErrors) st rfl hst
      have hused : (fullMask showAllErrors).fn (callFor (lonely i n entries) first) = 0 := by
        show toInt32 _ = 0
        rw [hmask]
        exact hzero
      rw [callRound] at hround
      dsimp only at hround
      rw [hused] at hround
      have hgoes : ¬ ((0 : Int) < 0 ∧ (!(fullMask showAllErrors).showAllErrors) = true) :=
        fun h => absurd h.1 (lt_irrefl 0)
      rw [traverseLoop, hround.trans (if_neg hgoes), if_pos rfl]
      apply ih
      rw [show toULong 0 = 0 from rfl, and_zero, updateTrees_zero]
      exact (forall₂_advance hst).imp fun _ _ hadv => hadv.1
  exact hloop _ (treeInv_init _)

/-- With bit 31 the walk ends with an error before all names were passed to the callback. -/
theorem not_joins_of_bit31 (n : Nat) :
    ¬ Joins (fullMask false) (lonely 31 n [fileNamed 97, fileNamed 98]) := by
  rintro ⟨fuel, st, order, hrun, hnodup, hnames, hcalls⟩
  have hlen := traverseTrees_lonely_stops (cons_ne_nil _ _) wellFormed_pair (by decide) hrun
  rw [hcalls, length_map] at hlen
  -- but there are two names
  obtain ⟨name, rfl⟩ := length_eq_one_iff.mp hlen
  have hmem : ∀ c : UInt8, fileNamed c ∈ [fileNamed 97, fileNamed 98] → [c] = name := by
    intro c hc
    refine mem_singleton.mp ((hnames [c]).mpr ⟨_, ?_, fileNamed c, hc, rfl⟩)
    simp [lonely]
  grind

/-- With bit 32 the walk does not end. -/
theorem not_joins_of_bit32 (n : Nat) (showAllErrors : Bool) :
    ¬ Joins (fullMask showAllErrors) (lonely 32 n [fileNamed 97, fileNamed 98]) := by
  rintro ⟨fuel, st, order, hrun, -⟩
  rw [traverseTrees_lonely_loops (cons_ne_nil _ _) wellFormed_pair (by decide)] at hrun
  cases hrun

end TooMany

/-- **`traverse_trees` is a full outer join on names for every `n` trees if and only if `n` is at most
31**, or 32 where errors do not end the walk. -/
theorem traverseTrees_joins_iff (n : Nat) (showAllErrors : Bool) :
    (∀ trees : List (List NameEntry), trees.length = n → (∀ entries ∈ trees, WellFormed entries) →
        Joins (fullMask showAllErrors) trees) ↔
      n ≤ 31 ∨ n = 32 ∧ showAllErrors = true := by
  constructor
  · intro h
    by_contra hfits
    rw [not_or, not_le, not_and] at hfits
    cases showAllErrors with
    | false =>
      refine not_joins_of_bit31 n (h _ (length_lonely (by omega) _) ?_)
      exact wellFormed_lonely 31 n wellFormed_pair
    | true =>
      have hne : n ≠ 32 := fun heq => hfits.2 heq rfl
      refine not_joins_of_bit32 n true (h _ (length_lonely (by omega) _) ?_)
      exact wellFormed_lonely 32 n wellFormed_pair
  · rintro hfits trees rfl hwf
    exact joins_of_fitsInt hfits hwf

/-- 32 trees, of which only the last one has entries, the files `a` and `b`: the second of them is not
passed to the callback. -/
theorem traverseTrees_stops :
    (lonely 31 32 [fileNamed 97, fileNamed 98]).length = 32 ∧
      (∀ entries ∈ lonely 31 32 [fileNamed 97, fileNamed 98], WellFormed entries) ∧
      ¬ Joins (fullMask false) (lonely 31 32 [fileNamed 97, fileNamed 98]) :=
  ⟨rfl, wellFormed_lonely 31 32 wellFormed_pair, not_joins_of_bit31 32⟩

end GitCore.TreeWalk
