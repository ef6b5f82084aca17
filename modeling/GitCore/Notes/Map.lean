import GitCore.Notes.Traverse
import GitCore.Notes.Update

/-! # The notes tree as a finite map

A run of insertions and removals on the tree and the same run on a finite map. The tree always has
the notes of the map, and its shape follows from them; a removal of a note that shares its first 32
digits with another one writes beyond the stack of ancestors. -/

namespace GitCore.Notes

open List
open Function (update update_eq_self update_of_ne update_self)

variable {algo : HashAlgo} {σ : Type} {root : IntNode algo} (odb : Odb algo σ)

/-! ## Runs -/

/-- An operation on a notes tree. -/
inductive Op (algo : HashAlgo) where
  | insert (combine : CombineNotes) (key val : Oid algo)
  | remove (key : Oid algo)

/-- One operation on the tree. -/
def treeStep (odb : Odb algo σ) : IntNode algo × σ → Op algo → Option (IntNode algo × σ)
  | (root, s), .insert combine key val =>
    (noteTreeInsert odb combine (insertFuel algo) root 0 ⟨key, val⟩ s).map fun out => out.2
  | (root, s), .remove key => (noteTreeRemove root key).map fun out => (out.1, s)

/-- A run on an empty tree. -/
def runTree (odb : Odb algo σ) (ops : List (Op algo)) (s : σ) : Option (IntNode algo × σ) :=
  ops.foldlM (treeStep odb) (emptyNode, s)

/-- A finite map from objects to notes. -/
abbrev NoteMap (algo : HashAlgo) := Oid algo → Option (Oid algo)

/-- What an operation makes of the value of its key. -/
def newValue (odb : Odb algo σ) (cur : Option (Oid algo)) (s : σ) : Op algo → Option (Oid algo) × σ
  | .insert combine _ val =>
    match cur with
    | none => (if val = nullOid algo then none else some val, s)
    | some cur =>
      if cur = val then (some cur, s)
      else
        let out := combineNotes odb combine cur val s
        (if out.1 = 0 ∧ out.2.1 = nullOid algo then none else some out.2.1, out.2.2)
  | .remove _ => (none, s)

/-- The key of an operation. -/
def Op.key : Op algo → Oid algo
  | .insert _ key _ => key
  | .remove key => key

/-- One operation on the map. -/
def mapStep (odb : Odb algo σ) (st : NoteMap algo × σ) (op : Op algo) : NoteMap algo × σ :=
  let out := newValue odb (st.1 op.key) st.2 op
  (update st.1 op.key out.1, out.2)

/-- A run on an empty map. -/
def runMap (odb : Odb algo σ) (ops : List (Op algo)) (s : σ) : NoteMap algo × σ :=
  ops.foldl (mapStep odb) (fun _ => none, s)

/-- Another key of a map shares the first `GIT_MAX_RAWSZ` digits with a key. -/
def CrowdedKey (m : NoteMap algo) (key : Oid algo) : Prop :=
  ∃ key' ≠ key, (m key').isSome ∧ ∀ j < gitMaxRawsz, getNibble j key' = getNibble j key

/-- An operation that removes a note finds no other note close to it. -/
def StepOk (odb : Odb algo σ) (st : NoteMap algo × σ) (op : Op algo) : Prop :=
  (st.1 op.key).isSome ∧ (newValue odb (st.1 op.key) st.2 op).1 = none → ¬ CrowdedKey st.1 op.key

/-- All operations of a run are like that. -/
def RunOk (odb : Odb algo σ) : List (Op algo) → NoteMap algo × σ → Prop
  | [], _ => True
  | op :: ops, st => StepOk odb st op ∧ RunOk odb ops (mapStep odb st op)

/-- The keys of a map fill all even levels above some key. -/
def FullMap (m : NoteMap algo) : Prop :=
  ∃ key, (m key).isSome ∧ ∀ n < 2 * algo.rawsz, n % 2 = 0 → ∀ i : Fin 16,
    ∃ k k', k ≠ k' ∧ (m k).isSome ∧ (m k').isSome ∧
      (∀ j < n, getNibble j k = getNibble j key ∧ getNibble j k' = getNibble j key) ∧
      getNibble n k = i ∧ getNibble n k' = i

/-! ## Trees of a map -/

/-- The tree is well formed and has the notes of the map. -/
structure Holds (root : IntNode algo) (m : NoteMap algo) : Prop where
  wf : NodeWF [] root
  mem : ∀ l, l ∈ nodeNotes root ↔ m l.key = some l.val
  value : ∀ key val, m key = some val → val ≠ nullOid algo

variable {m : NoteMap algo}

section Holds

variable (h : Holds root m)
include h

theorem Holds.exists_note_iff (key : Oid algo) :
    (∃ l ∈ nodeNotes root, l.key = key) ↔ (m key).isSome := by
  rw [Option.isSome_iff_exists]
  constructor
  · rintro ⟨l, hl, rfl⟩
    exact ⟨l.val, (h.mem l).mp hl⟩
  · rintro ⟨val, hval⟩
    exact ⟨⟨key, val⟩, (h.mem _).mpr hval, rfl⟩

theorem Holds.crowded_iff (key : Oid algo) : Crowded (nodeNotes root) key ↔ CrowdedKey m key := by
  constructor
  · rintro ⟨l, hl, hne, hagree⟩
    exact ⟨l.key, hne, (h.exists_note_iff l.key).mp ⟨l, hl, rfl⟩, hagree⟩
  · rintro ⟨key', hne, hsome, hagree⟩
    obtain ⟨l, hl, rfl⟩ := (h.exists_note_iff key').mpr hsome
    exact ⟨l, hl, hne, hagree⟩

section

variable {root' : IntNode algo} (hwf : NodeWF [] root') {key : Oid algo}

include hwf

/-- The note of a key is changed, or gone. -/
theorem Holds.replace {o : Option (Oid algo)} (hval : ∀ val, o = some val → val ≠ nullOid algo)
    (hnotes : ∀ l, l ∈ nodeNotes root' ↔
      l.key = key ∧ o = some l.val ∨ l ∈ nodeNotes root ∧ l.key ≠ key) :
    Holds root' (update m key o) := by
  refine ⟨hwf, fun l => ?_, fun k v hkv => ?_⟩
  · rw [hnotes, h.mem]
    by_cases hkey : l.key = key
    · simp [hkey]
    · simp [hkey]
  · by_cases hk : k = key
    · rw [hk, update_self] at hkv
      exact hval v hkv
    · rw [update_of_ne hk] at hkv
      exact h.value k v hkv

/-- A note takes the place of the one with its key. -/
theorem Holds.set {val : Oid algo} (hval : val ≠ nullOid algo)
    (hnotes : ∀ l, l ∈ nodeNotes root' ↔ l = ⟨key, val⟩ ∨ l ∈ nodeNotes root ∧ l.key ≠ key) :
    Holds root' (update m key (some val)) := by
  refine h.replace hwf (fun _ => by rintro ⟨⟩; exact hval) fun ⟨key', val'⟩ => ?_
  simp [hnotes, eq_comm]

/-- The note of a key is gone. -/
theorem Holds.erase (hnotes : ∀ l, l ∈ nodeNotes root' ↔ l ∈ nodeNotes root ∧ l.key ≠ key) :
    Holds root' (update m key none) :=
  h.replace hwf nofun fun l => by simp [hnotes]

end

end Holds

/-- A failed combination does not leave the null id. -/
theorem combineNotes_fails (combine : CombineNotes) (cur new : Oid algo) (s : σ)
    (h : (combineNotes odb combine cur new s).1 ≠ 0) :
    (combineNotes odb combine cur new s).2.1 ≠ nullOid algo := by
  cases combine with
  | overwrite | ignore => exact absurd rfl h
  | concatenate =>
    revert h
    unfold combineNotes combineNotesConcatenate
    dsimp only
    split
    · exact fun h => absurd rfl h
    split
    · exact fun h => absurd rfl h
    · exact odb.write_fails _ _

/-! ## One operation -/

/-- What an operation should do to a tree of a map. -/
def StepSpec (odb : Odb algo σ) (root : IntNode algo) (m : NoteMap algo) (s : σ) (op : Op algo) :
    Prop :=
  (StepOk odb (m, s) op → ∃ root', treeStep odb (root, s) op =
      some (root', (mapStep odb (m, s) op).2) ∧ Holds root' (mapStep odb (m, s) op).1) ∧
    (¬ StepOk odb (m, s) op → treeStep odb (root, s) op = none)

/-- **A removal** keeps the tree and the map together. -/
theorem treeStep_remove (h : Holds root m) (s : σ) (key : Oid algo) :
    StepSpec odb root m s (.remove key) := by
  have hok : StepOk odb (m, s) (.remove key) ↔ ((m key).isSome → ¬ CrowdedKey m key) := by
    simp [StepOk, newValue, Op.key]
  unfold StepSpec
  rw [hok, treeStep, ← h.exists_note_iff, ← h.crowded_iff]
  rcases noteTreeRemove_spec h.wf key with ⟨hin, hcrowded, hnone⟩ |
    ⟨hfree, root', old, hsome, hwf, hnotes⟩
  · grind
  · rw [hsome]
    refine ⟨fun _ => ⟨root', rfl, h.erase hwf hnotes⟩, fun hno => absurd hfree hno⟩

/-- The slot where a key belongs, and what storing there does. -/
structure Located (root : IntNode algo) (key : Oid algo) (level : Nat) (p : Slot algo)
    (pre : List (Fin 16)) : Prop where
  search : noteTreeSearch root 0 key = (level, p)
  found : Found key (nodeNotes root) 0 level p pre
  store : ∀ p', p'.WF pre → KeepsKeys p p' → NodeWF [] (noteTreeStore root 0 key p') ∧
    Stored (nodeNotes root) p p' (nodeNotes (noteTreeStore root 0 key p'))

theorem exists_located (h : NodeWF [] root) (key : Oid algo) :
    ∃ level p pre, Located root key level p pre := by
  obtain ⟨pre, hfound, hstore⟩ := noteTreeSearch_spec (n := 0) rfl h (under_nil key)
  exact ⟨_, _, pre, rfl, hfound, hstore⟩

section Insert

variable (h : Holds root m) (s : σ)
  (combine : CombineNotes) {key val cur v : Oid algo} {level : Nat} {pre : List (Fin 16)}
include h

/-- The note of the key is in the slot. -/
theorem Located.mem_iff {p : Slot algo} (hloc : Located root key level p pre) :
    (⟨key, v⟩ : LeafNode algo) ∈ p.notes ↔ m key = some v := by
  rw [hloc.found.mem, h.mem]
  exact and_iff_left hloc.found.under

omit h in
/-- Without a note of the key, the map gets one unless the value is null, and nothing is removed. -/
theorem mapStep_insert_none (val : Oid algo) (hnone : m key = none) :
    StepOk odb (m, s) (.insert combine key val) ∧
      mapStep odb (m, s) (.insert combine key val) =
        (if val = nullOid algo then m else update m key (some val), s) := by
  refine ⟨fun hremoves => ?_, ?_⟩
  · have hsome : (m key).isSome := hremoves.1
    rw [hnone] at hsome
    cases hsome
  change (update m key (newValue odb (m key) s (.insert combine key val)).1,
    (newValue odb (m key) s (.insert combine key val)).2) = _
  rw [hnone, newValue]
  by_cases hval : val = nullOid algo
  · rw [if_pos hval, if_pos hval, ← hnone, update_eq_self]
  · rw [if_neg hval, if_neg hval]

/-- A note goes into an empty slot. -/
theorem treeStep_insert_null (hloc : Located root key level .null pre) :
    StepSpec odb root m s (.insert combine key val) := by
  have hnone : m key = none := by
    rw [Option.eq_none_iff_forall_ne_some]
    exact fun v hv => not_mem_nil ((hloc.mem_iff h).mpr hv)
  obtain ⟨hok, hmap⟩ := mapStep_insert_none odb s combine val hnone
  refine ⟨fun _ => ?_, fun hno => absurd hok hno⟩
  rw [hmap, treeStep, insertFuel, noteTreeInsert, hloc.search]
  by_cases hval : val = nullOid algo
  · rw [if_pos hval, if_pos hval]
    exact ⟨root, rfl, h⟩
  rw [if_neg hval, if_neg hval]
  obtain ⟨hwf, hstored⟩ := hloc.store (.note ⟨key, val⟩) hloc.found.under (by rintro _ ⟨⟩)
  refine ⟨_, rfl, h.set hwf hval fun l => ?_⟩
  rw [hstored l, notes_note, mem_singleton]
  refine or_congr_right (and_congr_right fun hl => iff_of_true not_mem_nil fun hkey => ?_)
  have := (h.mem l).mp hl
  rw [hkey, hnone] at this
  cases this

/-- A slot with the note of another key becomes a node. -/
theorem treeStep_insert_other {l : LeafNode algo} (hloc : Located root key level (.note l) pre)
    (hkey : l.key ≠ key) : StepSpec odb root m s (.insert combine key val) := by
  have hl : l ∈ nodeNotes root := ((hloc.found.mem l).mp (mem_singleton_self l)).1
  have hnone : m key = none := by
    rw [Option.eq_none_iff_forall_ne_some]
    intro v hv
    have := mem_singleton.mp ((hloc.mem_iff h).mpr hv)
    exact hkey (this ▸ rfl)
  obtain ⟨hok, hmap⟩ := mapStep_insert_none odb s combine val hnone
  refine ⟨fun _ => ?_, fun hno => absurd hok hno⟩
  rw [hmap, treeStep, insertFuel, noteTreeInsert, hloc.search]
  dsimp only
  rw [if_neg hkey]
  by_cases hval : val = nullOid algo
  · rw [if_pos hval, if_pos hval]
    exact ⟨root, rfl, h⟩
  rw [if_neg hval, if_neg hval]
  have hlval : l.val ≠ nullOid algo := h.value l.key l.val ((h.mem l).mp hl)
  obtain ⟨node, hinsert, hwf, hnotes⟩ := noteTreeInsert_singleNode odb combine l
    ⟨key, val⟩ hkey hlval hval (2 * algo.rawsz) (by omega) hloc.found.wf hloc.found.under s
  rw [hloc.found.length_eq] at hinsert
  obtain ⟨k, hk⟩ : ∃ k, 2 * algo.rawsz = k + 1 :=
    Nat.exists_eq_succ_of_ne_zero (by cases algo <;> decide)
  rw [hk] at hinsert ⊢
  rw [noteTreeInsert_emptyNode odb combine k _ hlval]
  dsimp only
  rw [if_neg (not_not.mpr rfl), hinsert]
  obtain ⟨hwf', hstored⟩ := hloc.store (.internal node) hwf fun x hx => by
    rw [mem_singleton.mp hx]
    exact ⟨l, (hnotes l).mpr (.inl rfl), rfl⟩
  refine ⟨_, rfl, h.set hwf' hval fun x => ?_⟩
  rw [hstored x, notes_internal, hnotes, notes_note, mem_singleton]
  constructor
  · rintro ((rfl | hx) | ⟨hx, hne⟩)
    · exact .inr ⟨hl, hkey⟩
    · exact .inl hx
    refine .inr ⟨hx, fun heq => ?_⟩
    have := (h.mem x).mp hx
    rw [heq, hnone] at this
    cases this
  grind

variable (hloc : Located root key level (.note ⟨key, cur⟩) pre)
include hloc

/-- The note of the key in the tree is replaced. -/
theorem Located.notes_replace (v : Oid algo) :
    NodeWF [] (noteTreeStore root 0 key (.note ⟨key, v⟩)) ∧
      ∀ x, x ∈ nodeNotes (noteTreeStore root 0 key (.note ⟨key, v⟩)) ↔
        x = ⟨key, v⟩ ∨ x ∈ nodeNotes root ∧ x.key ≠ key := by
  obtain ⟨hwf, hstored⟩ := hloc.store (.note ⟨key, v⟩) hloc.found.under fun x hx => by
    rw [mem_singleton.mp hx]
    exact ⟨_, mem_singleton_self _, rfl⟩
  refine ⟨hwf, fun x => ?_⟩
  rw [hstored x, notes_note, mem_singleton]
  refine or_congr_right (and_congr_right fun hx => not_congr ?_)
  rw [notes_note, mem_singleton]
  refine ⟨fun heq => heq ▸ rfl, fun heq => ?_⟩
  cases heq
  exact mem_singleton.mp ((hloc.mem_iff h).mpr ((h.mem _).mp hx))

/-- A combination that leaves the null id removes the note. -/
theorem noteTreeRemove_replaced :
    (CrowdedKey m key → noteTreeRemove (noteTreeStore root 0 key (.note ⟨key, v⟩)) key = none) ∧
      (¬ CrowdedKey m key → ∃ root' old,
        noteTreeRemove (noteTreeStore root 0 key (.note ⟨key, v⟩)) key = some (root', old) ∧
          Holds root' (update m key none)) := by
  obtain ⟨hwf, hnotes⟩ := hloc.notes_replace h v
  have hcrowded : Crowded (nodeNotes (noteTreeStore root 0 key (.note ⟨key, v⟩))) key ↔
      CrowdedKey m key := by
    rw [← h.crowded_iff]
    refine exists_congr fun x => ?_
    grind
  have hin : ∃ x ∈ nodeNotes (noteTreeStore root 0 key (.note ⟨key, v⟩)), x.key = key :=
    ⟨_, (hnotes _).mpr (.inl rfl), rfl⟩
  rcases noteTreeRemove_spec hwf key with ⟨-, hclose, hnone⟩ |
    ⟨hfree, root', old, hsome, hwf', hnotes'⟩
  · exact ⟨fun _ => hnone, fun hno => absurd (hcrowded.mp hclose) hno⟩
  refine ⟨fun hclose => absurd (hcrowded.mpr hclose) (hfree hin), fun _ =>
    ⟨root', old, hsome, h.erase hwf' fun x => ?_⟩⟩
  grind

/-- A note of the same key is combined. -/
theorem treeStep_insert_same : StepSpec odb root m s (.insert combine key val) := by
  have hcur : m key = some cur := (hloc.mem_iff h).mp (mem_singleton_self _)
  have hok : StepOk odb (m, s) (.insert combine key val) ↔
      ((newValue odb (some cur) s (.insert combine key val)).1 = none → ¬ CrowdedKey m key) := by
    rw [← hcur]
    have hsome : (m key).isSome := by rw [hcur]; rfl
    exact ⟨fun hno hnone => hno ⟨hsome, hnone⟩, fun hno hboth => hno hboth.2⟩
  have hmap : mapStep odb (m, s) (.insert combine key val) =
      (update m key (newValue odb (some cur) s (.insert combine key val)).1,
        (newValue odb (some cur) s (.insert combine key val)).2) := by
    rw [← hcur]
    rfl
  unfold StepSpec
  rw [hok, hmap, treeStep, insertFuel, noteTreeInsert, hloc.search, newValue]
  dsimp only
  rw [if_pos rfl]
  by_cases hsame : cur = val
  · rw [if_pos hsame, if_pos hsame, ← hcur, update_eq_self]
    exact ⟨fun _ => ⟨root, rfl, h⟩, fun hno => absurd (fun hnone => by simp [hcur] at hnone) hno⟩
  rw [if_neg hsame, if_neg hsame]
  have hfails := combineNotes_fails odb combine cur val s
  generalize combineNotes odb combine cur val s = out at hfails
  by_cases hnull : out.1 = 0 ∧ out.2.1 = nullOid algo
  · rw [if_pos hnull, if_pos hnull]
    obtain ⟨hbad, hgood⟩ := noteTreeRemove_replaced h (v := out.2.1) hloc
    refine ⟨fun hno => ?_, fun hno => ?_⟩
    · obtain ⟨root', old, hsome, hholds⟩ := hgood (hno rfl)
      rw [hsome]
      exact ⟨root', rfl, hholds⟩
    · rw [hbad (by_contra fun hfree => hno fun _ => hfree)]
      rfl
  · rw [if_neg hnull, if_neg hnull]
    have hval : out.2.1 ≠ nullOid algo := fun hnil =>
      hfails (fun hzero => hnull ⟨hzero, hnil⟩) hnil
    obtain ⟨hwf, hnotes⟩ := hloc.notes_replace h out.2.1
    exact ⟨fun _ => ⟨_, rfl, h.set hwf hval hnotes⟩,
      fun hno => absurd (fun hnone => by cases hnone) hno⟩

omit hloc in
/-- **An insertion** keeps the tree and the map together. -/
theorem treeStep_insert (key val : Oid algo) : StepSpec odb root m s (.insert combine key val) := by
  obtain ⟨level, p, pre, hloc⟩ := exists_located h.wf key
  cases p with
  | null => exact treeStep_insert_null odb h s combine hloc
  | internal a => exact absurd hloc.found.leaf (by simp [Slot.isInternal])
  | note l =>
    by_cases hkey : l.key = key
    · obtain ⟨k, cur⟩ := l
      cases hkey
      exact treeStep_insert_same odb h s combine hloc
    · exact treeStep_insert_other odb h s combine hloc hkey

end Insert

/-! ## Whole runs -/

/-- **A run on a tree of a map** goes through exactly if no removal is crowded. -/
theorem foldlM_treeStep (ops : List (Op algo)) (h : Holds root m) (s : σ) :
    (RunOk odb ops (m, s) → ∃ root', ops.foldlM (treeStep odb) (root, s) =
        some (root', (ops.foldl (mapStep odb) (m, s)).2) ∧
          Holds root' (ops.foldl (mapStep odb) (m, s)).1) ∧
      (¬ RunOk odb ops (m, s) → ops.foldlM (treeStep odb) (root, s) = none) := by
  induction ops generalizing root m s with
  | nil => exact ⟨fun _ => ⟨root, rfl, h⟩, fun hno => absurd trivial hno⟩
  | cons op ops ih =>
    have hstep : StepSpec odb root m s op := by
      cases op with
      | insert combine key val => exact treeStep_insert odb h s combine key val
      | remove key => exact treeStep_remove odb h s key
    rw [foldlM_cons, foldl_cons]
    by_cases hok : StepOk odb (m, s) op
    · obtain ⟨root', hsome, hholds⟩ := hstep.1 hok
      obtain ⟨hgood, hbad⟩ := ih hholds (mapStep odb (m, s) op).2
      rw [hsome]
      exact ⟨fun hrun => hgood hrun.2, fun hrun => hbad fun hrest => hrun ⟨hok, hrest⟩⟩
    · rw [hstep.2 hok]
      exact ⟨fun hrun => absurd hrun.1 hok, fun _ => rfl⟩

/-- The empty tree is the tree of the empty map. -/
theorem holds_emptyNode : Holds (emptyNode : IntNode algo) fun _ => none :=
  ⟨nodeWF_emptyNode [], fun l => iff_of_false (notes_emptyNode l) (by simp), by simp⟩

/-- Every node of a slot has at least two notes below it. -/
def TwoBelow : Slot algo → Prop
  | .null => True
  | .note _ => True
  | .internal a => 2 ≤ (Slot.internal a).notes.length ∧ ∀ i, TwoBelow (a i)

theorem Slot.WF.twoBelow {pre : List (Fin 16)} {s : Slot algo} (h : s.WF pre) : TwoBelow s := by
  induction s generalizing pre with
  | null | note => trivial
  | internal a ih =>
    refine ⟨?_, fun i => ih i (h.2 i)⟩
    obtain ⟨l, hl, l', hl', hne⟩ := h.1
    by_contra hlen
    rcases hnotes : (Slot.internal a).notes with _ | ⟨x, _ | ⟨y, rest⟩⟩
    · rw [← notes_internal, hnotes] at hl
      exact not_mem_nil hl
    · rw [← notes_internal, hnotes, mem_singleton] at hl hl'
      exact hne (by rw [hl, hl'])
    · rw [hnotes] at hlen
      exact hlen (by simp)

/-- **A notes tree is a finite map**: it finds the values, is traversed in ascending order, and has
two notes below every node but the root. -/
structure IsFiniteMap (root : IntNode algo) (m : NoteMap algo) : Prop where
  find : ∀ key, noteTreeFind root 0 key = (m key).map fun val => ⟨key, val⟩
  traversal : ∃ calls : List (LeafNode algo × List UInt8),
    calls.Pairwise (fun call call' => call.1.key.1 < call'.1.key.1) ∧
    (∀ l, l ∈ calls.map Prod.fst ↔ m l.key = some l.val) ∧
    ∀ {σ : Type} (fn : EachNoteFn algo σ) (s : σ),
      forEachNote root fn s = some (visitNotes fn calls s)
  shape : ∀ i, TwoBelow (root i)

/-- The notes of a tree of a map fill the even levels if the keys of the map do. -/
theorem Holds.fullFanout_iff (h : Holds root m) :
    (∃ l ∈ nodeNotes root, FullFanout (nodeNotes root) l.key) ↔ FullMap m := by
  constructor
  · rintro ⟨l, hl, hfull⟩
    refine ⟨l.key, (h.exists_note_iff _).mp ⟨l, hl, rfl⟩, fun n hn heven i => ?_⟩
    obtain ⟨x, hx, y, hy, hne, hagree⟩ := hfull n hn heven i
    exact ⟨x.key, y.key, hne, (h.exists_note_iff _).mp ⟨x, hx, rfl⟩,
      (h.exists_note_iff _).mp ⟨y, hy, rfl⟩, hagree⟩
  · rintro ⟨key, hsome, hfull⟩
    obtain ⟨l, hl, rfl⟩ := (h.exists_note_iff key).mpr hsome
    refine ⟨l, hl, fun n hn heven i => ?_⟩
    obtain ⟨k, k', hne, hk, hk', hagree⟩ := hfull n hn heven i
    obtain ⟨x, hx, rfl⟩ := (h.exists_note_iff k).mpr hk
    obtain ⟨y, hy, rfl⟩ := (h.exists_note_iff k').mpr hk'
    exact ⟨x, hx, y, hy, hne, hagree⟩

/-- **A tree of a map is a finite map**, unless the assertion on the fanout fails. -/
theorem Holds.isFiniteMap_iff (h : Holds root m) : IsFiniteMap root m ↔ ¬ FullMap m := by
  rw [← h.fullFanout_iff]
  have hrawsz : 0 < 2 * algo.rawsz := by cases algo <;> decide
  have hslot : ∀ i l, l ∈ (root i).notes ↔ l ∈ nodeNotes root ∧ Under ([] ++ [i]) l.key :=
    h.wf.mem_slot_notes fun l => (and_iff_left (under_nil l.key)).symm
  have hfanout : ∀ key, FanoutAt (nodeNotes root) key 0 (determineFanout root 0 0) :=
    determineFanout_root h.wf
  constructor
  · rintro ⟨-, ⟨calls, -, -, hvisit⟩, -⟩ ⟨l, hl, hfull⟩
    have hnone : forEachNote root goOn () = none :=
      eachSlot_none (fun i => forEachFrom_goOn _ _ _) (mem_finRange (getNibble 0 l.key))
        (forEachFrom_none rfl hrawsz (h.wf _) (hslot _) (fun key _ => hfanout key)
          (h.wf.mem_iff.mp hl) hfull)
    rw [hvisit] at hnone
    cases hnone
  · intro hshallow
    have hcalls : ∀ i, ∃ calls : List (LeafNode algo × List UInt8),
        calls.map Prod.fst = (root i).notes ∧ ∀ {σ : Type} (fn : EachNoteFn algo σ) (s : σ),
          forEachFrom fn (root i) 0 (determineFanout root 0 0) s = some (visitNotes fn calls s) :=
      fun i => forEachFrom_spec rfl hrawsz (h.wf i) (hslot i) (fun key _ => hfanout key)
        fun l hl hfull => hshallow ⟨l, mem_nodeNotes.mpr ⟨i, hl⟩, hfull⟩
    choose calls hmap hvisit using hcalls
    have hnotes : ((List.finRange 16).flatMap calls).map Prod.fst = nodeNotes root := by
      rw [map_flatMap]
      simp only [hmap]
      rfl
    refine ⟨fun key => Option.ext fun l => ?_, ⟨(List.finRange 16).flatMap calls, ?_, fun l => ?_,
      fun fn s => eachSlot_eq (fun i s => hvisit i fn s) _ s⟩, fun i => (h.wf i).twoBelow⟩
    · rw [noteTreeFind_eq_some_iff h.wf, h.mem, Option.map_eq_some_iff]
      constructor
      · rintro ⟨hl, rfl⟩
        exact ⟨l.val, hl, rfl⟩
      · rintro ⟨v, hv, rfl⟩
        exact ⟨hv, rfl⟩
    · have hsorted := h.wf.sorted_of_slots (by simpa using hrawsz) fun i => (h.wf i).sorted
      grind
    · rw [hnotes]
      exact h.mem l

/-- **The notes tree is a finite map whose shape depends on its entries only**, after every run that
removes no note of which another one shares the first 32 digits, and unless its notes fill all even
levels above one of them; otherwise a removal or the traversal fails. -/
theorem notesTree_isFiniteMap_iff (odb : Odb algo σ) (ops : List (Op algo)) (s : σ) :
    (∃ root s', runTree odb ops s = some (root, s') ∧ IsFiniteMap root (runMap odb ops s).1 ∧
        ∀ ops' t root' t', runTree odb ops' t = some (root', t') →
          (runMap odb ops' t).1 = (runMap odb ops s).1 → root' = root) ↔
      RunOk odb ops (fun _ => none, s) ∧ ¬ FullMap (runMap odb ops s).1 := by
  have hrun : ∀ ops s, _ := fun ops s => foldlM_treeStep odb ops holds_emptyNode s
  have hholds : ∀ {ops s root s'}, runTree odb ops s = some (root, s') →
      Holds root (runMap odb ops s).1 := by
    intro ops s root s' hsome
    by_cases hok : RunOk odb ops (fun _ => none, s)
    · obtain ⟨root', hsome', hholds⟩ := (hrun ops s).1 hok
      rw [runTree, hsome'] at hsome
      cases hsome
      exact hholds
    · rw [runTree, (hrun ops s).2 hok] at hsome
      cases hsome
  constructor
  · rintro ⟨root, s', hsome, hmap, -⟩
    refine ⟨by_contra fun hbad => ?_, (hholds hsome).isFiniteMap_iff.mp hmap⟩
    rw [runTree, (hrun ops s).2 hbad] at hsome
    cases hsome
  · rintro ⟨hok, hfull⟩
    obtain ⟨root, hsome, hroot⟩ := (hrun ops s).1 hok
    refine ⟨root, _, hsome, hroot.isFiniteMap_iff.mpr hfull, fun ops' t root' t' hsome' hsame => ?_⟩
    have hroot' := hholds hsome'
    refine hroot'.wf.ext hroot.wf fun l => ?_
    rw [hroot'.mem, hroot.mem, hsame]
    rfl

/-- An object database without objects. -/
def emptyOdb : Odb .sha1 Unit where
  readObject _ _ := none
  writeObject _ _ := (0, nullOid .sha1, ())
  write_fails _ _ h := absurd rfl h

/-- An id whose first 39 digits are zero. -/
def lowOid (last : UInt8) : Oid .sha1 := ⟨List.replicate 19 0 ++ [last], rfl⟩

/-- **A removal that writes beyond the stack of ancestors**: two notes that share 39 digits. -/
theorem noteTreeRemove_overflows :
    runTree emptyOdb [.insert .overwrite (lowOid 1) (lowOid 1), .insert .overwrite (lowOid 2) (lowOid 1),
      .remove (lowOid 1)] () = none := by
  rfl

end GitCore.Notes
