import GitCore.Lib.CInt
import GitCore.Lib.Fanout
import GitCore.Lib.PrefixOrder
import GitCore.Notes.Tree
import Mathlib.Data.Set.Finite.Lemmas

/-! # The entries of a multi-pack index

The objects of all packs are gathered in 256 slices, one for each first byte of an object id. A
slice is sorted and only the first entry of each object is kept. There is no earlier multi-pack
index, so all packs are new ones. -/

namespace GitCore.Midx

open List
open Notes (HashAlgo Oid)

variable {algo : HashAlgo} {curFanout : Nat}

/-! ## Packs -/

/-- `hash[0]` -/
def firstByte (oid : Oid algo) : Nat := (oid.1.headD 0).toNat

/-- **A pack with its index**: the objects with their offsets in the order of their ids, and the
fan-out table, which counts the objects up to a first byte. -/
structure Pack (algo : HashAlgo) where
  name : List UInt8
  mtime : Int
  objects : List (Oid algo × UInt64)
  fanout : Nat → Nat
  sorted : objects.Pairwise fun o o' => o.1 < o'.1
  fanout_eq : ∀ v < 256, fanout v = objects.countP fun o => decide (firstByte o.1 ≤ v)
  offset_lt : ∀ o ∈ objects, o.2.toNat < 2 ^ 63

/-- `struct pack_midx_entry` -/
structure PackMidxEntry (algo : HashAlgo) where
  oid : Oid algo
  packIntId : UInt32
  packMtime : Int
  offset : UInt64
  preferred : Bool
deriving DecidableEq

/-- `NO_PREFERRED_PACK` -/
def noPreferredPack : UInt32 := 0xffffffff

/-- `oidcmp` -/
def oidcmp (a b : Oid algo) : Int := if a < b then -1 else if a = b then 0 else 1

/-- `midx_oid_compare`: the difference of the pack numbers is unsigned and becomes an `int`. -/
def midxOidCompare (a b : PackMidxEntry algo) : Int :=
  let cmp := oidcmp a.oid b.oid
  if cmp ≠ 0 then cmp
  else if b.preferred < a.preferred then -1
  else if a.preferred < b.preferred then 1
  else if b.packMtime < a.packMtime then -1
  else if a.packMtime < b.packMtime then 1
  else toInt32 (a.packIntId - b.packIntId).toNat

/-- `fill_pack_entry` -/
def fillPackEntry (packIntId : UInt32) (p : Pack algo) (preferred : Bool)
    (object : Oid algo × UInt64) : PackMidxEntry algo :=
  ⟨object.1, packIntId, p.mtime, object.2, preferred⟩

/-- `midx_fanout_add_pack_fanout`: the entries that are added. -/
def midxFanoutAddPackFanout (p : Pack algo) (curPack : UInt32) (preferred : Bool)
    (curFanout : Nat) : List (PackMidxEntry algo) :=
  let start := if curFanout = 0 then 0 else p.fanout (curFanout - 1)
  let stop := p.fanout curFanout
  ((p.objects.take stop).drop start).map (fillPackEntry curPack p preferred)

/-- The entries that are gathered for one slice. -/
def gatherSlice (packs : List (Pack algo)) (preferredPackIdx : UInt32) (curFanout : Nat) :
    List (PackMidxEntry algo) :=
  packs.zipIdx.flatMap fun info =>
    midxFanoutAddPackFanout info.1 (UInt32.ofNat info.2) (UInt32.ofNat info.2 == preferredPackIdx)
      curFanout

/-- `midx_fanout_sort` -/
def midxFanoutSort (l : List (PackMidxEntry algo)) : List (PackMidxEntry algo) :=
  l.insertionSort fun a b => midxOidCompare a b ≤ 0

/-- What one slice keeps: the first entry of each object. -/
def keptSlice (packs : List (Pack algo)) (preferredPackIdx : UInt32) (curFanout : Nat) :
    List (PackMidxEntry algo) :=
  firstOfEach PackMidxEntry.oid none (midxFanoutSort (gatherSlice packs preferredPackIdx curFanout))

/-- `compute_sorted_entries`; `none` where a loop that counts with `uint32_t` never ends. -/
def computeSortedEntries (packs : List (Pack algo)) (preferredPackIdx : UInt32) :
    Option (List (PackMidxEntry algo)) :=
  if packs.length < 2 ^ 32 ∧
      ∀ curFanout < 256, (gatherSlice packs preferredPackIdx curFanout).length < 2 ^ 32 then
    some ((List.range 256).flatMap (keptSlice packs preferredPackIdx))
  else none

/-! ## Slices -/

theorem firstByte_lt (oid : Oid algo) : firstByte oid < 256 := (oid.1.headD 0).toNat_lt

/-- The first byte is ascending with the id. -/
theorem firstByte_mono : Monotone (@firstByte algo) := by
  rintro ⟨a, ha⟩ ⟨b, hb⟩ hle
  cases a with
  | nil => cases algo <;> cases ha
  | cons x a =>
    cases b with
    | nil => cases algo <;> cases hb
    | cons y b =>
      rcases cons_le_cons_iff.mp (show x :: a ≤ y :: b from hle) with hlt | ⟨rfl, -⟩
      · exact (UInt8.lt_iff_toNat_lt.mp hlt).le
      · exact le_rfl

/-- All entries of a pack. -/
def packEntries (preferredPackIdx : UInt32) (info : Pack algo × Nat) : List (PackMidxEntry algo) :=
  info.1.objects.map (fillPackEntry (UInt32.ofNat info.2) info.1
    (UInt32.ofNat info.2 == preferredPackIdx))

/-- All entries of all packs. -/
def allEntries (packs : List (Pack algo)) (preferredPackIdx : UInt32) : List (PackMidxEntry algo) :=
  packs.zipIdx.flatMap (packEntries preferredPackIdx)

/-- The slice of the fan-out table has the objects with the first byte. -/
theorem Pack.slice_eq_filter (p : Pack algo) (h : curFanout < 256) :
    (p.objects.take (p.fanout curFanout)).drop
        (if curFanout = 0 then 0 else p.fanout (curFanout - 1)) =
      p.objects.filter fun o => decide (firstByte o.1 = curFanout) := by
  rw [p.fanout_eq curFanout h,
    (initial_bucket (pairwise_bucket firstByte_mono p.sorted) curFanout).splitAt_countP.1]
  by_cases hzero : curFanout = 0
  · subst hzero
    exact filter_congr fun o _ => by simp
  rw [if_neg hzero, p.fanout_eq _ (by omega)]
  -- what was counted up to the byte before is a part of the slice
  have hcount : p.objects.countP (fun o => decide (firstByte o.1 ≤ curFanout - 1)) =
      (p.objects.filter fun o => decide (firstByte o.1 ≤ curFanout)).countP
        fun o => decide (firstByte o.1 ≤ curFanout - 1) := by
    rw [countP_filter]
    grind
  have hsorted : (p.objects.filter fun o => decide (firstByte o.1 ≤ curFanout)).Pairwise
      fun o o' => o.1 < o'.1 := p.sorted.filter _
  rw [hcount,
    (initial_bucket (pairwise_bucket firstByte_mono hsorted) (curFanout - 1)).splitAt_countP.2,
    filter_filter]
  grind

/-- **The slices** divide all entries by their first byte. -/
theorem gatherSlice_eq_filter (packs : List (Pack algo)) (preferredPackIdx : UInt32)
    (h : curFanout < 256) :
    gatherSlice packs preferredPackIdx curFanout =
      (allEntries packs preferredPackIdx).filter fun e => decide (firstByte e.oid = curFanout) := by
  rw [gatherSlice, allEntries, filter_flatMap]
  congr 1
  funext info
  rw [midxFanoutAddPackFanout, info.1.slice_eq_filter h, packEntries, filter_map]
  rfl

/-! ## Order -/

/-- What the comparison is meant to compare. -/
def rank (e : PackMidxEntry algo) : Oid algo ×ₗ Boolᵒᵈ ×ₗ Intᵒᵈ ×ₗ Nat :=
  toLex (e.oid, toLex (OrderDual.toDual e.preferred,
    toLex (OrderDual.toDual e.packMtime, e.packIntId.toNat)))

theorem rank_le_iff {a b : PackMidxEntry algo} : rank a ≤ rank b ↔ a.oid < b.oid ∨ a.oid = b.oid ∧
    (b.preferred < a.preferred ∨ a.preferred = b.preferred ∧ (b.packMtime < a.packMtime ∨
      a.packMtime = b.packMtime ∧ a.packIntId.toNat ≤ b.packIntId.toNat)) := by
  simp only [rank, Prod.Lex.le_iff, ofLex_toLex, OrderDual.toDual_lt_toDual, OrderDual.toDual_inj]

/-- **The comparison** is the one by rank, but for pack numbers that are far apart. -/
theorem midxOidCompare_le_iff {a b : PackMidxEntry algo} : midxOidCompare a b ≤ 0 ↔
    a.oid < b.oid ∨ a.oid = b.oid ∧ (b.preferred < a.preferred ∨ a.preferred = b.preferred ∧
      (b.packMtime < a.packMtime ∨ a.packMtime = b.packMtime ∧
        toInt32 (a.packIntId - b.packIntId).toNat ≤ 0)) := by
  rw [midxOidCompare, oidcmp]
  rcases lt_trichotomy a.oid b.oid with hoid | hoid | hoid
  · simp [hoid]
  · simp only [hoid, lt_irrefl, if_false, if_true, ne_eq, not_true, true_and, false_or]
    grind
  · simp [hoid.le.not_gt, hoid.ne']

/-- A smaller pack number is before a larger one that is at most 2^31 away. -/
theorem toInt32_sub_le {a b : UInt32} (hab : a.toNat ≤ b.toNat) (hnear : b.toNat ≤ a.toNat + 2 ^ 31) :
    toInt32 (a - b).toNat ≤ 0 := by
  have hb := b.toNat_lt
  rw [UInt32.toNat_sub]
  rcases hab.eq_or_lt with heq | hlt
  · rw [show (2 ^ 32 - b.toNat + a.toNat) % 2 ^ 32 = 0 by omega, toInt32_of_lt (by omega)]
    rfl
  · rw [toInt32_of_le (by omega) (by omega)]
    omega

theorem mem_midxFanoutSort {l : List (PackMidxEntry algo)} {e : PackMidxEntry algo} :
    e ∈ midxFanoutSort l ↔ e ∈ l :=
  mem_insertionSort _

theorem compare_of_oid_lt (a b : PackMidxEntry algo) (h : a.oid < b.oid) : midxOidCompare a b ≤ 0 :=
  midxOidCompare_le_iff.mpr (.inl h)

theorem not_compare_of_oid_gt (a b : PackMidxEntry algo) (h : b.oid < a.oid) :
    ¬ midxOidCompare a b ≤ 0 := fun hle =>
  (midxOidCompare_le_iff.mp hle).elim h.not_gt fun heq => h.ne' heq.1

/-! ## Selection -/

/-- The pack has an object. -/
def Pack.Has (p : Pack algo) (oid : Oid algo) : Prop := ∃ offset, (oid, offset) ∈ p.objects

/-- **The pack that an object is taken from**: the preferred one if it has the object, else the one
with the largest modification time, and of those the one with the smallest number. -/
structure Chosen (packs : List (Pack algo)) (preferredPackIdx : UInt32) (oid : Oid algo) (i : Nat)
    (p : Pack algo) : Prop where
  pack : packs[i]? = some p
  has : p.Has oid
  best : i = preferredPackIdx.toNat ∨
    (∀ q, packs[preferredPackIdx.toNat]? = some q → ¬ q.Has oid) ∧
      ∀ j q, packs[j]? = some q → q.Has oid → q.mtime < p.mtime ∨ q.mtime = p.mtime ∧ i ≤ j

/-- **The entries of an index**: strictly ascending by object id, with every object of every pack,
each from the pack that is chosen for it. -/
structure Exact (packs : List (Pack algo)) (preferredPackIdx : UInt32)
    (entries : List (PackMidxEntry algo)) : Prop where
  ascending : entries.Pairwise fun e e' => e.oid < e'.oid
  complete : ∀ p ∈ packs, ∀ o ∈ p.objects, ∃ e ∈ entries, e.oid = o.1
  chosen : ∀ e ∈ entries, ∃ i p, Chosen packs preferredPackIdx e.oid i p ∧
    e.packIntId = UInt32.ofNat i ∧ (e.oid, e.offset) ∈ p.objects

/-- **No pack far behind ties with the chosen one**: a pack with the same time that has the object
too is at most 2^31 numbers behind. -/
def TiesNear (packs : List (Pack algo)) (preferredPackIdx : UInt32) : Prop :=
  ∀ oid i p j q, Chosen packs preferredPackIdx oid i p → i ≠ preferredPackIdx.toNat →
    packs[j]? = some q → q.Has oid → q.mtime = p.mtime → j ≤ i + 2 ^ 31

variable {packs : List (Pack algo)} {preferredPackIdx : UInt32} {e : PackMidxEntry algo}

theorem mem_allEntries : e ∈ allEntries packs preferredPackIdx ↔
    ∃ i p, packs[i]? = some p ∧ ∃ o ∈ p.objects,
      fillPackEntry (UInt32.ofNat i) p (UInt32.ofNat i == preferredPackIdx) o = e := by
  simp only [allEntries, mem_flatMap, packEntries, mem_map, Prod.exists, mk_mem_zipIdx_iff_getElem?]
  exact exists_comm

theorem toNat_ofNat_pack {i : Nat} {p : Pack algo} (hlength : packs.length ≤ 2 ^ 32)
    (hp : packs[i]? = some p) : (UInt32.ofNat i).toNat = i := by
  obtain ⟨hi, -⟩ := List.getElem?_eq_some_iff.mp hp
  exact UInt32.toNat_ofNat_of_lt' (show i < 2 ^ 32 by omega)

/-- The entries of an object are gathered in the order of the packs. -/
theorem allEntries_pairwise (hlength : packs.length < 2 ^ 32) :
    (allEntries packs preferredPackIdx).Pairwise fun a b =>
      a.oid = b.oid → a.packIntId.toNat < b.packIntId.toNat := by
  refine pairwise_flatMap.mpr ⟨fun info _ => ?_, ?_⟩
  · exact pairwise_map.mpr (info.1.sorted.imp fun hlt heq => absurd heq hlt.ne)
  · refine pairwise_iff_getElem.mpr fun i j hi hj hij a ha b hb _ => ?_
    obtain ⟨o, -, rfl⟩ := mem_map.mp ha
    obtain ⟨o', -, rfl⟩ := mem_map.mp hb
    rw [length_zipIdx] at hi hj
    simp only [fillPackEntry, getElem_zipIdx, Nat.zero_add,
      toNat_ofNat_pack hlength.le (getElem?_eq_getElem hi),
      toNat_ofNat_pack hlength.le (getElem?_eq_getElem hj)]
    exact hij

section

variable (hlength : packs.length < 2 ^ 32)

include hlength

/-- An entry that no other one of its object comes before is from the chosen pack. -/
theorem chosen_of_first {i : Nat} {p : Pack algo} {o : Oid algo × UInt64} (hp : packs[i]? = some p)
    (ho : o ∈ p.objects) (hfirst : ∀ a ∈ allEntries packs preferredPackIdx, a.oid = o.1 →
      rank (fillPackEntry (UInt32.ofNat i) p (UInt32.ofNat i == preferredPackIdx) o) ≤ rank a) :
    Chosen packs preferredPackIdx o.1 i p := by
  have hpreferred : ∀ {j q}, packs[j]? = some q →
      ((UInt32.ofNat j == preferredPackIdx) = true ↔ j = preferredPackIdx.toNat) := by
    intro j q hq
    have hj := toNat_ofNat_pack hlength.le hq
    rw [beq_iff_eq]
    exact ⟨fun h => by rw [← h, hj], fun h => UInt32.toNat_inj.mp (hj.trans h)⟩
  -- the entry of another pack with the object is not before this one
  have hother : ∀ {j q}, packs[j]? = some q → q.Has o.1 →
      (UInt32.ofNat i == preferredPackIdx) = true ∨ (UInt32.ofNat j == preferredPackIdx) = false ∧
        (q.mtime < p.mtime ∨ q.mtime = p.mtime ∧ i ≤ j) := by
    intro j q hq hhas
    obtain ⟨offset, hoffset⟩ := hhas
    have hle := hfirst _ (mem_allEntries.mpr ⟨j, q, hq, _, hoffset, rfl⟩) rfl
    simp only [rank_le_iff, fillPackEntry, lt_irrefl, false_or, true_and,
      toNat_ofNat_pack hlength.le hp, toNat_ofNat_pack hlength.le hq] at hle
    cases hi : UInt32.ofNat i == preferredPackIdx
    · rw [hi] at hle
      rcases hle with hle | ⟨hj, hle⟩
      · exact absurd hle (not_lt.mpr (Bool.false_le _))
      · exact .inr ⟨hj.symm, hle.imp_right fun h => ⟨h.1.symm, h.2⟩⟩
    · exact .inl rfl
  refine ⟨hp, ⟨o.2, ho⟩, ?_⟩
  by_cases hi : (UInt32.ofNat i == preferredPackIdx) = true
  · exact .inl ((hpreferred hp).mp hi)
  grind

variable (hnear : TiesNear packs preferredPackIdx)

include hnear

/-- **The first entry of an object by rank** is not behind one from a later pack. -/
theorem compare_of_first (he : e ∈ allEntries packs preferredPackIdx)
    (hfirst : ∀ a ∈ allEntries packs preferredPackIdx, a.oid = e.oid → rank e ≤ rank a)
    {a : PackMidxEntry algo} (ha : a ∈ allEntries packs preferredPackIdx) (hoid : a.oid = e.oid) :
    midxOidCompare e a ≤ 0 := by
  have hle := hfirst a ha hoid
  obtain ⟨i, p, hp, o, ho, rfl⟩ := mem_allEntries.mp he
  obtain ⟨j, q, hq, o', ho', rfl⟩ := mem_allEntries.mp ha
  refine midxOidCompare_le_iff.mpr ((rank_le_iff.mp hle).imp_right fun h => ⟨h.1, h.2.imp_right
    fun ⟨hflag, h⟩ => ⟨hflag, h.imp_right fun ⟨htime, hid⟩ => ⟨htime, toInt32_sub_le hid ?_⟩⟩⟩)
  -- the two tie: only the preferred pack has its flag, and the others are near
  have hi := toNat_ofNat_pack hlength.le hp
  have hj := toNat_ofNat_pack hlength.le hq
  by_cases hpref : i = preferredPackIdx.toNat
  · have hown : UInt32.ofNat i = preferredPackIdx := UInt32.toNat_inj.mp (hi.trans hpref)
    have hother : UInt32.ofNat j = preferredPackIdx :=
      beq_iff_eq.mp (hflag.symm.trans (beq_iff_eq.mpr hown))
    simp only [fillPackEntry, hown, hother]
    omega
  · have := hnear o.1 i p j q (chosen_of_first hlength hp ho hfirst) hpref hq
      ⟨o'.2, by rw [← show o'.1 = o.1 from hoid]; exact ho'⟩ htime.symm
    change (UInt32.ofNat j).toNat ≤ (UInt32.ofNat i).toNat + 2 ^ 31
    omega

/-- **The first entry of an object by rank** is kept. -/
theorem mem_keptSlice (he : e ∈ allEntries packs preferredPackIdx)
    (hfirst : ∀ a ∈ allEntries packs preferredPackIdx, a.oid = e.oid → rank e ≤ rank a) :
    e ∈ keptSlice packs preferredPackIdx (firstByte e.oid) := by
  have hslice := gatherSlice_eq_filter packs preferredPackIdx (firstByte_lt e.oid)
  have hall : (allEntries packs preferredPackIdx).Pairwise _ := allEntries_pairwise hlength
  have hpair := hall.filter fun a => decide (firstByte a.oid = firstByte e.oid)
  have hmem : ∀ {a}, a ∈ gatherSlice packs preferredPackIdx (firstByte e.oid) →
      a ∈ allEntries packs preferredPackIdx := fun ha => (mem_filter.mp (hslice ▸ ha)).1
  obtain ⟨l₁, l₂, heq⟩ := append_of_mem (hslice ▸ mem_filter.mpr ⟨he, decide_eq_true rfl⟩)
  rw [← hslice, heq, pairwise_append] at hpair
  rw [heq] at hmem
  -- no entry of the object from an earlier pack is before this one by rank
  have hbefore : ∀ a ∈ l₁, a.oid = e.oid → ¬ midxOidCompare a e ≤ 0 := by
    intro a ha hae hle
    have hid := hpair.2.2 a ha e mem_cons_self hae
    have hrank := hfirst a (hmem (mem_append_left _ ha)) hae
    rw [midxOidCompare_le_iff, hae] at hle
    rw [rank_le_iff, hae] at hrank
    grind
  have hafter : ∀ b ∈ l₂, b.oid = e.oid → midxOidCompare e b ≤ 0 := fun b hb hbe =>
    compare_of_first hlength hnear he hfirst (hmem (mem_append_right _ (mem_cons_of_mem _ hb))) hbe
  obtain ⟨l₁', l₂', hsort, hl₁'⟩ :=
    exists_insertionSort_eq not_compare_of_oid_gt compare_of_oid_lt hbefore hafter
  rw [keptSlice, midxFanoutSort, heq, hsort]
  exact mem_firstOfEach _ _ (fun b hb => (hl₁' b hb).ne) (Option.some_ne_none _).symm

end

/-- The entries that a slice keeps are strictly ascending. -/
theorem keptSlice_pairwise (packs : List (Pack algo)) (preferredPackIdx : UInt32) (curFanout : Nat) :
    (keptSlice packs preferredPackIdx curFanout).Pairwise fun e e' => e.oid < e'.oid :=
  (firstOfEach_pairwise (pairwise_insertionSort_key not_compare_of_oid_gt compare_of_oid_lt _)
    fun k (hk : k ∈ none) => absurd hk (Option.not_mem_none k)).1

theorem mem_of_mem_keptSlice (hfanout : curFanout < 256)
    (he : e ∈ keptSlice packs preferredPackIdx curFanout) :
    e ∈ allEntries packs preferredPackIdx ∧ firstByte e.oid = curFanout := by
  have hslice := mem_midxFanoutSort.mp ((firstOfEach_sublist _ _ _).subset he)
  rw [gatherSlice_eq_filter packs preferredPackIdx hfanout] at hslice
  exact ⟨(mem_filter.mp hslice).1, of_decide_eq_true (mem_filter.mp hslice).2⟩

/-- Every object has a first entry by rank. -/
theorem exists_first (he : e ∈ allEntries packs preferredPackIdx) :
    ∃ m ∈ allEntries packs preferredPackIdx, m.oid = e.oid ∧
      ∀ a ∈ allEntries packs preferredPackIdx, a.oid = m.oid → rank m ≤ rank a := by
  obtain ⟨m, ⟨hm, hoid⟩, hmin⟩ := Set.exists_min_image
    {a | a ∈ allEntries packs preferredPackIdx ∧ a.oid = e.oid} rank
    ((allEntries packs preferredPackIdx).finite_toSet.subset fun _ ha => ha.1) ⟨e, he, rfl⟩
  exact ⟨m, hm, hoid, fun a ha hae => hmin a ⟨ha, hae.trans hoid⟩⟩

/-- **The entries** are exact, whenever they are computed and no pack far behind ties. -/
theorem computeSortedEntries_exact (hnear : TiesNear packs preferredPackIdx)
    {entries : List (PackMidxEntry algo)}
    (h : computeSortedEntries packs preferredPackIdx = some entries) :
    Exact packs preferredPackIdx entries := by
  rw [computeSortedEntries, Option.ite_none_right_eq_some] at h
  obtain ⟨⟨hlength, -⟩, h⟩ := h
  obtain rfl := Option.some.inj h
  constructor
  · refine pairwise_flatMap.mpr ⟨fun v _ => keptSlice_pairwise packs preferredPackIdx v, ?_⟩
    refine pairwise_lt_range.imp_of_mem fun {v w} hv hw hvw e he e' he' => ?_
    have hev := (mem_of_mem_keptSlice (mem_range.mp hv) he).2
    have hew := (mem_of_mem_keptSlice (mem_range.mp hw) he').2
    by_contra hle
    have := firstByte_mono (not_lt.mp hle)
    omega
  · intro p hp o ho
    obtain ⟨i, hi⟩ := mem_iff_getElem?.mp hp
    have hentry : _ ∈ allEntries packs preferredPackIdx :=
      mem_allEntries.mpr ⟨i, p, hi, o, ho, rfl⟩
    obtain ⟨m, hm, hoid, hfirst⟩ := exists_first hentry
    exact ⟨m, mem_flatMap.mpr ⟨_, mem_range.mpr (firstByte_lt m.oid),
      mem_keptSlice hlength hnear hm hfirst⟩, hoid⟩
  · intro e he
    obtain ⟨v, hv, he⟩ := mem_flatMap.mp he
    obtain ⟨hall, rfl⟩ := mem_of_mem_keptSlice (mem_range.mp hv) he
    obtain ⟨m, hm, hoid, hfirst⟩ := exists_first hall
    -- the slice keeps one entry of the object
    obtain rfl : m = e := inj_on_of_nodup_map
      (pairwise_map.mpr ((keptSlice_pairwise packs preferredPackIdx _).imp fun h => h.ne))
      (hoid ▸ mem_keptSlice hlength hnear hm hfirst) he hoid
    obtain ⟨i, p, hp, o, ho, rfl⟩ := mem_allEntries.mp hm
    exact ⟨i, p, chosen_of_first hlength hp ho hfirst, rfl, ho⟩

end GitCore.Midx
