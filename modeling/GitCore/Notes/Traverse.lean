import GitCore.Notes.Shape

/-! # Traversing a notes tree

`for_each_note` goes through the slots in order, so it meets the notes in the order of their keys.
On the way it counts in `fanout` the even levels whose nodes are full of nodes, for the paths it
builds; the assertion on `fanout` fails exactly when all even levels above some note are full. -/

namespace GitCore.Notes

open List

variable {algo : HashAlgo} {σ : Type} {pre : List (Fin 16)} {key : Oid algo} {s : Slot algo}

/-- The calls of a callback, until it gives a non-zero value. -/
def visitNotes (fn : EachNoteFn algo σ) : List (LeafNode algo × List UInt8) → σ → Int × σ
  | [], s => (0, s)
  | (l, path) :: rest, s =>
    let out := fn l path s
    if out.1 ≠ 0 then out else visitNotes fn rest out.2

theorem visitNotes_append (fn : EachNoteFn algo σ) (calls calls' : List (LeafNode algo × List UInt8))
    (s : σ) :
    visitNotes fn (calls ++ calls') s =
      if (visitNotes fn calls s).1 ≠ 0 then visitNotes fn calls s
      else visitNotes fn calls' (visitNotes fn calls s).2 := by
  induction calls generalizing s with
  | nil => rfl
  | cons call calls ih =>
    rw [cons_append, visitNotes, visitNotes]
    by_cases hstop : (fn call.1 call.2 s).1 ≠ 0
    · rw [if_pos hstop, if_pos hstop, if_pos hstop]
    · rw [if_neg hstop, if_neg hstop]
      exact ih _

/-- The loop over slots makes the calls of all of them. -/
theorem eachSlot_eq {fn : EachNoteFn algo σ} {visit : Fin 16 → σ → Option (Int × σ)}
    {calls : Fin 16 → List (LeafNode algo × List UInt8)}
    (h : ∀ i s, visit i s = some (visitNotes fn (calls i) s)) (slots : List (Fin 16)) (s : σ) :
    eachSlot visit slots s = some (visitNotes fn (slots.flatMap calls) s) := by
  induction slots generalizing s with
  | nil => rfl
  | cons i rest ih =>
    rw [eachSlot, h i s, flatMap_cons, visitNotes_append]
    dsimp only
    by_cases hstop : (visitNotes fn (calls i) s).1 ≠ 0
    · rw [if_pos hstop, if_pos hstop]
    · rw [if_neg hstop, if_neg hstop]
      exact ih _

/-! ## Full levels -/

/-- Every digit at a level has notes of two keys, among the notes that start like a key. -/
def FullAt (notes : List (LeafNode algo)) (key : Oid algo) (n : Nat) : Prop :=
  ∀ i : Fin 16, ∃ l ∈ notes, ∃ l' ∈ notes, l.key ≠ l'.key ∧
    (∀ j < n, getNibble j l.key = getNibble j key ∧ getNibble j l'.key = getNibble j key) ∧
    getNibble n l.key = i ∧ getNibble n l'.key = i

/-- The even levels up to one are full. -/
def FullUpTo (notes : List (LeafNode algo)) (key : Oid algo) (n : Nat) : Prop :=
  ∀ j ≤ n, j % 2 = 0 → FullAt notes key j

/-- All even levels are full. -/
def FullFanout (notes : List (LeafNode algo)) (key : Oid algo) : Prop :=
  ∀ j < 2 * algo.rawsz, j % 2 = 0 → FullAt notes key j

/-- The fanout at a level: it counts the full levels as long as all of them are. -/
def FanoutAt (notes : List (LeafNode algo)) (key : Oid algo) (n fanout : Nat) : Prop :=
  fanout ≤ n / 2 + 1 ∧ (fanout = n / 2 + 1 ↔ FullUpTo notes key n)

theorem fullUpTo_succ {notes : List (LeafNode algo)} {n : Nat} :
    FullUpTo notes key (n + 1) ↔
      FullUpTo notes key n ∧ ((n + 1) % 2 = 0 → FullAt notes key (n + 1)) := by
  constructor
  · exact fun h => ⟨fun j hj => h j (by omega), h (n + 1) le_rfl⟩
  rintro ⟨h, hlast⟩ j hj
  rcases Nat.lt_or_eq_of_le hj with hj | rfl
  · exact h j (by omega)
  · exact hlast

/-- A slot holds a node if it has two keys. -/
theorem isInternal_iff (h : s.WF pre) : s.isInternal = true ↔ TwoKeys s.notes := by
  cases s with
  | null => exact iff_of_false Bool.false_ne_true fun ⟨l, hl, _⟩ => not_mem_nil hl
  | note l =>
    refine iff_of_false Bool.false_ne_true fun ⟨x, hx, y, hy, hne⟩ => hne ?_
    rw [mem_singleton.mp hx, mem_singleton.mp hy]
  | internal a => exact iff_of_true rfl h.1

section Node

variable {notes : List (LeafNode algo)} {tree : IntNode algo}
  (h : NodeWF pre tree) (hnotes : ∀ l, l ∈ nodeNotes tree ↔ l ∈ notes ∧ Under pre l.key)
include h hnotes

/-- A node is full of nodes if its level is. -/
theorem all_isInternal_iff (hkey : Under pre key) :
    ((List.finRange 16).all fun i => (tree i).isInternal) = true ↔
      FullAt notes key pre.length := by
  simp only [all_eq_true, mem_finRange, true_imp_iff]
  refine forall_congr' fun i => ?_
  rw [isInternal_iff (h i)]
  have hmem : ∀ l, l ∈ (tree i).notes ↔ l ∈ notes ∧
      (∀ j < pre.length, getNibble j l.key = getNibble j key) ∧ getNibble pre.length l.key = i := by
    intro l
    rw [h.mem_slot_iff, hnotes, under_iff hkey, and_assoc]
  constructor
  · rintro ⟨l, hl, l', hl', hne⟩
    grind
  · rintro ⟨l, hin, l', hin', hne, hagree, hdigit, hdigit'⟩
    exact ⟨l, (hmem l).mpr ⟨hin, fun j hj => (hagree j hj).1, hdigit⟩, l',
      (hmem l').mpr ⟨hin', fun j hj => (hagree j hj).2, hdigit'⟩, hne⟩

/-- **One level more** keeps the count. -/
theorem determineFanout_spec (hkey : Under pre key) {n fanout : Nat}
    (hpre : pre.length = n + 1) (hfanout : FanoutAt notes key n fanout) :
    FanoutAt notes key (n + 1) (determineFanout tree (n + 1) fanout) := by
  obtain ⟨hle, hiff⟩ := hfanout
  have hall := all_isInternal_iff h hnotes hkey
  rw [hpre] at hall
  unfold FanoutAt determineFanout
  rw [fullUpTo_succ]
  rcases Nat.mod_two_eq_zero_or_one (n + 1) with heven | hodd
  · by_cases hfull : fanout = n / 2 + 1
    · rw [if_neg (by omega)]
      split_ifs with hslots
      · exact ⟨by omega, iff_of_true (by omega) ⟨hiff.mp hfull, fun _ => hall.mp hslots⟩⟩
      · exact ⟨by omega, iff_of_false (by omega) fun hboth => hslots (hall.mpr (hboth.2 heven))⟩
    · have hnot : ¬ FullUpTo notes key n := fun hup => hfull (hiff.mpr hup)
      rw [if_pos (by omega)]
      exact ⟨by omega, iff_of_false (by omega) fun hboth => hnot hboth.1⟩
  grind

end Node

/-- The root starts the count. -/
theorem determineFanout_root {root : IntNode algo} (h : NodeWF [] root) (key : Oid algo) :
    FanoutAt (nodeNotes root) key 0 (determineFanout root 0 0) := by
  have hall := all_isInternal_iff h (fun l => (and_iff_left (under_nil l.key)).symm) (under_nil key)
  have hzero : FullUpTo (nodeNotes root) key 0 ↔ FullAt (nodeNotes root) key 0 := by
    constructor
    · exact fun hup => hup 0 le_rfl rfl
    intro hfull j hj _
    obtain rfl : j = 0 := by omega
    exact hfull
  unfold FanoutAt determineFanout
  grind

/-! ## The traversal -/

/-- The slot of a node holds the notes that start with its digits. -/
theorem NodeWF.mem_slot_notes {notes : List (LeafNode algo)}
    {tree : IntNode algo} (h : NodeWF pre tree)
    (hnotes : ∀ l, l ∈ nodeNotes tree ↔ l ∈ notes ∧ Under pre l.key) (i : Fin 16)
    (l : LeafNode algo) : l ∈ (tree i).notes ↔ l ∈ notes ∧ Under (pre ++ [i]) l.key := by
  rw [h.mem_slot_iff, hnotes, under_concat, and_assoc]

/-- A callback that never stops. -/
def goOn : EachNoteFn algo Unit := fun _ _ _ => (0, ())

section

variable {visit : Fin 16 → Unit → Option (Int × Unit)}
  (hgo : ∀ i, visit i () = none ∨ visit i () = some (0, ()))

include hgo

/-- The loop over slots that never stops fails if one of them does. -/
theorem eachSlot_none {slots : List (Fin 16)} {i : Fin 16}
    (hi : i ∈ slots) (hnone : visit i () = none) : eachSlot visit slots () = none := by
  induction slots with
  | nil => cases hi
  | cons k rest ih =>
    rw [eachSlot]
    rcases hgo k with hk | hk
    · rw [hk]
    rw [hk]
    rcases mem_cons.mp hi with rfl | hi
    · rw [hk] at hnone
      cases hnone
    · exact ih hi

theorem eachSlot_goOn (slots : List (Fin 16)) :
    eachSlot visit slots () = none ∨ eachSlot visit slots () = some (0, ()) := by
  induction slots with
  | nil => exact .inr rfl
  | cons k rest ih =>
    rw [eachSlot]
    rcases hgo k with hk | hk
    · rw [hk]
      exact .inl rfl
    · rw [hk]
      exact ih

end

theorem forEachFrom_goOn (s : Slot algo) (n fanout : Nat) :
    forEachFrom goOn s n fanout () = none ∨ forEachFrom goOn s n fanout () = some (0, ()) := by
  induction s generalizing n fanout with
  | null => exact .inr rfl
  | note l =>
    rw [forEachFrom]
    cases constructPathWithFanout l.key fanout with
    | none => exact .inl rfl
    | some path => exact .inr rfl
  | internal a ih =>
    exact eachSlot_goOn (fun i => ih i _ _) _

section Slots

variable {notes : List (LeafNode algo)} {n fanout : Nat} (hpre : pre.length = n + 1)
  (hn : n < 2 * algo.rawsz) (h : s.WF pre)
  (hnotes : ∀ l, l ∈ s.notes ↔ l ∈ notes ∧ Under pre l.key)
  (hfanout : ∀ key, Under pre key → FanoutAt notes key n fanout)

include hpre hn h hnotes hfanout

/-- **The traversal of a slot** calls the callback for its notes in order, if no note has all even
levels full. -/
theorem forEachFrom_spec (hshallow : ∀ l ∈ s.notes, ¬ FullFanout notes l.key) :
    ∃ calls : List (LeafNode algo × List UInt8), calls.map Prod.fst = s.notes ∧
      ∀ {σ : Type} (fn : EachNoteFn algo σ) (st : σ),
        forEachFrom fn s n fanout st = some (visitNotes fn calls st) := by
  induction s generalizing n fanout pre with
  | null => exact ⟨[], rfl, fun fn st => rfl⟩
  | note l =>
    have hmem : l ∈ (Slot.note l).notes := mem_singleton_self l
    obtain ⟨hle, hiff⟩ := hfanout l.key (h.under hmem)
    have hlt : fanout < algo.rawsz := by
      by_contra hge
      refine hshallow l hmem fun j hj heven => ?_
      exact hiff.mp (by omega) j (by omega) heven
    refine ⟨[(l, fanoutPath (hashToHex l.key) fanout)], rfl, fun fn st => ?_⟩
    rw [forEachFrom, constructPathWithFanout, if_pos hlt, visitNotes]
    by_cases hstop : (fn l (fanoutPath (hashToHex l.key) fanout) st).1 ≠ 0
    · simp [hstop]
    simp only [ne_eq, not_not] at hstop
    simp only [Option.map_some, hstop, ne_eq, not_true_eq_false, if_false, visitNotes]
    rw [← hstop]
  | internal a ih =>
    have hnode : NodeWF pre a := h.2
    have hlen := h.length_lt
    have hslots : ∀ i, ∃ calls : List (LeafNode algo × List UInt8),
        calls.map Prod.fst = (a i).notes ∧ ∀ {σ : Type} (fn : EachNoteFn algo σ) (st : σ),
          forEachFrom fn (a i) (n + 1) (determineFanout a (n + 1) fanout) st =
            some (visitNotes fn calls st) := by
      intro i
      have hlength : (pre ++ [i]).length = n + 1 + 1 := by rw [length_append, hpre]; rfl
      refine ih i hlength (by omega) (hnode i) (hnode.mem_slot_notes hnotes i) (fun key hkey => ?_)
        fun l hl => hshallow l (mem_nodeNotes.mpr ⟨i, hl⟩)
      have hunder := (under_concat.mp hkey).1
      exact determineFanout_spec hnode hnotes hunder hpre (hfanout key hunder)
    choose calls hcalls hvisit using hslots
    refine ⟨(List.finRange 16).flatMap calls, ?_, fun fn st => ?_⟩
    · rw [map_flatMap]
      simp only [hcalls]
      rfl
    · rw [forEachFrom]
      exact eachSlot_eq (fun i st => hvisit i fn st) _ st

/-- **The assertion fails** at a note that has all even levels full. -/
theorem forEachFrom_none {l : LeafNode algo} (hl : l ∈ s.notes) (hfull : FullFanout notes l.key) :
    forEachFrom goOn s n fanout () = none := by
  induction s generalizing n fanout pre with
  | null => cases hl
  | note x =>
    obtain rfl := mem_singleton.mp hl
    obtain ⟨hle, hiff⟩ := hfanout l.key (h.under hl)
    -- a higher slot would have to hold two more keys
    have hlevel : 2 * algo.rawsz ≤ n + 1 := by
      by_contra hlt
      obtain ⟨x, hx, y, hy, hne, hagree, hdigit, hdigit'⟩ := hfull (2 * algo.rawsz - 2) (by omega)
        (by omega) (getNibble (2 * algo.rawsz - 2) l.key)
      have hunder : ∀ z : LeafNode algo, z ∈ notes →
          (∀ j < 2 * algo.rawsz - 2, getNibble j z.key = getNibble j l.key) →
          getNibble (2 * algo.rawsz - 2) z.key = getNibble (2 * algo.rawsz - 2) l.key → z = l := by
        intro z hz hzagree hzdigit
        refine mem_singleton.mp ((hnotes z).mpr ⟨hz, ?_⟩)
        refine (under_iff (h.under hl)).mpr fun j hj => ?_
        grind
      grind
    have heq : fanout = n / 2 + 1 := hiff.mpr fun j hj heven => hfull j (by omega) heven
    rw [forEachFrom, constructPathWithFanout, if_neg (by omega)]
    rfl
  | internal a ih =>
    have hnode : NodeWF pre a := h.2
    obtain ⟨i, hi⟩ := mem_nodeNotes.mp hl
    refine eachSlot_none (fun i => forEachFrom_goOn _ _ _) (mem_finRange i) ?_
    have hlen := h.length_lt
    have hlength : (pre ++ [i]).length = n + 1 + 1 := by rw [length_append, hpre]; rfl
    refine ih i hlength (by omega) (hnode i) (hnode.mem_slot_notes hnotes i) (fun key hkey => ?_) hi
    have hunder := (under_concat.mp hkey).1
    exact determineFanout_spec hnode hnotes hunder hpre (hfanout key hunder)

end Slots

end GitCore.Notes
