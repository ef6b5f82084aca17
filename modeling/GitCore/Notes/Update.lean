import GitCore.Notes.Shape

/-! # Removing and inserting notes

A removal clears a slot and takes back the nodes that have no two keys left; an insertion makes new
nodes until two keys part. Both keep the tree well formed, and change the note of one key only. The
notes determine a well formed tree. -/

namespace GitCore.Notes

open List

variable {algo : HashAlgo} {σ : Type}

/-! ## Consolidation -/

open Classical in
/-- With an entry found already, no other one may follow. -/
theorem onlyEntry_of_found (tree : IntNode algo) {p : Slot algo} (hp : p ≠ .null)
    (slots : List (Fin 16)) :
    onlyEntry tree slots p = if ∀ i ∈ slots, tree i = .null then some p else none := by
  induction slots with
  | nil => simp [onlyEntry]
  | cons i rest ih =>
    simp only [forall_mem_cons]
    cases hi : tree i with
    | null => simp [onlyEntry, hi, ih]
    | note | internal => cases p <;> simp_all [onlyEntry]

/-- The loop over the slots finds the only entry, or that there are two. -/
theorem onlyEntry_cases (tree : IntNode algo) {slots : List (Fin 16)} (hnodup : slots.Nodup)
    (hslots : slots ≠ []) :
    (∃ i ∈ slots, onlyEntry tree slots .null = some (tree i) ∧
        ∀ j ∈ slots, j ≠ i → tree j = .null) ∨
      (onlyEntry tree slots .null = none ∧
        ∃ i ∈ slots, ∃ j ∈ slots, i ≠ j ∧ tree i ≠ .null ∧ tree j ≠ .null) := by
  induction slots with
  | nil => exact absurd rfl hslots
  | cons i rest ih =>
    obtain ⟨hi_rest, hrest⟩ := nodup_cons.mp hnodup
    by_cases hi : tree i = .null
    · have hstep : onlyEntry tree (i :: rest) .null = onlyEntry tree rest .null := by
        rw [onlyEntry, hi]
      rw [hstep]
      by_cases hnil : rest = []
      · subst hnil
        exact .inl ⟨i, mem_cons_self, by rw [onlyEntry, hi], by simp⟩
      · rcases ih hrest hnil with ⟨k, hk, hsome, hall⟩ | ⟨hnone, k, hk, j, hj, hne⟩
        · exact .inl ⟨k, mem_cons_of_mem _ hk, hsome, forall_mem_cons.mpr ⟨fun _ => hi, hall⟩⟩
        · exact .inr ⟨hnone, k, mem_cons_of_mem _ hk, j, mem_cons_of_mem _ hj, hne⟩
    · have hstep : onlyEntry tree (i :: rest) .null = onlyEntry tree rest (tree i) := by
        rw [onlyEntry]
        simp
      rw [hstep, onlyEntry_of_found tree hi]
      split
      · grind
      grind

variable {pre : List (Fin 16)} {tree : IntNode algo}

/-- **A consolidated node** keeps its notes in the parent's slot; a node that stays has two keys. -/
theorem noteTreeConsolidate_spec (h : NodeWF pre tree) :
    (∃ p, noteTreeConsolidate tree = some p ∧ p.WF pre ∧ p.isInternal = false ∧
        ∀ l, l ∈ p.notes ↔ l ∈ nodeNotes tree) ∨
      (noteTreeConsolidate tree = none ∧ TwoKeys (nodeNotes tree)) := by
  unfold noteTreeConsolidate
  rcases onlyEntry_cases tree (nodup_finRange 16) (by decide) with ⟨i, -, hsome, hall⟩ |
    ⟨hnone, i, -, j, -, hij, hi, hj⟩
  · have hmem : ∀ l, l ∈ (tree i).notes ↔ l ∈ nodeNotes tree := by
      intro l
      refine ⟨fun hl => mem_nodeNotes.mpr ⟨i, hl⟩, fun hl => ?_⟩
      obtain ⟨j, hj⟩ := mem_nodeNotes.mp hl
      by_cases hji : j = i
      · rwa [← hji]
      · rw [hall j (mem_finRange j) hji] at hj
        cases hj
    rw [hsome]
    have hwf := h i
    cases hslot : tree i with
    | null =>
      rw [hslot] at hmem
      exact .inl ⟨.null, rfl, trivial, rfl, hmem⟩
    | note l =>
      rw [hslot] at hwf hmem
      exact .inl ⟨.note l, rfl, (under_concat.mp hwf).1, rfl, hmem⟩
    | internal a =>
      rw [hslot] at hwf hmem
      obtain ⟨l, hl, l', hl', hkeys⟩ := hwf.1
      exact .inr ⟨rfl, l, (hmem l).mp hl, l', (hmem l').mp hl', hkeys⟩
  · rw [hnone]
    obtain ⟨l, hl⟩ := (h i).exists_note hi
    obtain ⟨l', hl'⟩ := (h j).exists_note hj
    refine .inr ⟨rfl, l, mem_nodeNotes.mpr ⟨i, hl⟩, l', mem_nodeNotes.mpr ⟨j, hl'⟩, fun hkey => hij ?_⟩
    have hdigit := (under_concat.mp ((h i).under hl)).2
    rw [hkey] at hdigit
    exact hdigit.symm.trans (under_concat.mp ((h j).under hl')).2

variable {s : Slot algo} {l : LeafNode algo} {key : Oid algo} {n : Nat}

/-- A slot without the note of a key makes a node without it. -/
theorem NodeWF.mem_update_removed (h : NodeWF pre tree)
    (hs : ∀ x, x ∈ s.notes ↔ x ∈ (tree (getNibble pre.length key)).notes ∧ x.key ≠ key)
    (x : LeafNode algo) :
    x ∈ nodeNotes (Function.update tree (getNibble pre.length key) s) ↔
      x ∈ nodeNotes tree ∧ x.key ≠ key := by
  rw [h.mem_update, hs, h.mem_slot_iff]
  grind

/-- **Unwinding** removes the note of a key from a slot and keeps it well formed. -/
theorem unwindFrom_spec (key : Oid algo) (hpre : pre.length = n + 1) (h : s.WF pre)
    (hkey : ∃ l ∈ s.notes, l.key = key) :
    (unwindFrom key s n).1.WF pre ∧
      (∀ l, l ∈ (unwindFrom key s n).1.notes ↔ l ∈ s.notes ∧ l.key ≠ key) ∧
      ((unwindFrom key s n).2 = false → (unwindFrom key s n).1.isInternal = true) := by
  induction s generalizing n pre with
  | null =>
    obtain ⟨l, hl, -⟩ := hkey
    cases hl
  | note l' =>
    obtain ⟨l, hl, rfl⟩ := hkey
    obtain rfl := mem_singleton.mp hl
    refine ⟨trivial, fun l' => ?_, fun hfalse => by cases hfalse⟩
    refine iff_of_false not_mem_nil fun ⟨hl', hne⟩ => hne ?_
    rw [mem_singleton.mp hl']
  | internal a ih =>
    obtain ⟨htwo, hnode⟩ := wf_internal.mp h
    obtain ⟨l, hl, rfl⟩ := hkey
    have hl' : l ∈ (a (getNibble (n + 1) l.key)).notes := by
      rw [← hpre]
      exact hnode.mem_iff.mp hl
    obtain ⟨hwf, hmem, hgo⟩ := ih (getNibble (n + 1) l.key) (n := n + 1)
      (by rw [length_append, hpre]; rfl) (hnode _) ⟨l, hl', rfl⟩
    have hupdate := hnode.update hwf
    have hnotes : ∀ x, x ∈ nodeNotes (Function.update a (getNibble (n + 1) l.key)
        (unwindFrom l.key (a (getNibble (n + 1) l.key)) (n + 1)).1) ↔
          x ∈ (Slot.internal a).notes ∧ x.key ≠ l.key := by
      rw [← hpre] at hmem ⊢
      exact hnode.mem_update_removed hmem
    rw [unwindFrom]
    by_cases hcont : (unwindFrom l.key (a (getNibble (n + 1) l.key)) (n + 1)).2 = true
    · rw [if_pos hcont]
      rcases noteTreeConsolidate_spec hupdate with ⟨p, hsome, hpwf, hleaf, hpnotes⟩ | ⟨hnone, hkeys⟩
      · grind
      · rw [hnone]
        exact ⟨wf_internal.mpr ⟨hkeys, hupdate⟩, hnotes, fun _ => rfl⟩
    · -- the node below stayed, and has two keys
      rw [if_neg hcont]
      have hinternal := hgo (eq_false_of_ne_true hcont)
      refine ⟨wf_internal.mpr ⟨?_, hupdate⟩, hnotes, fun _ => rfl⟩
      cases hslot : (unwindFrom l.key (a (getNibble (n + 1) l.key)) (n + 1)).1 with
      | null | note => simp [hslot, Slot.isInternal] at hinternal
      | internal b =>
        rw [hslot] at hwf
        obtain ⟨x, hx, y, hy, hxy⟩ := hwf.1
        exact ⟨x, mem_nodeNotes_update.mpr (.inl hx), y, mem_nodeNotes_update.mpr (.inl hy), hxy⟩

/-! ## Removal -/

/-- Another note shares the first `GIT_MAX_RAWSZ` digits with a key. -/
def Crowded (notes : List (LeafNode algo)) (key : Oid algo) : Prop :=
  ∃ l ∈ notes, l.key ≠ key ∧ ∀ j < gitMaxRawsz, getNibble j l.key = getNibble j key

/-- The level of a note tells whether another one is close. -/
theorem Found.level_iff {notes : List (LeafNode algo)} {m : Nat}
    (h : Found key notes 0 m (.note l) pre) (hl : l.key = key) :
    gitMaxRawsz ≤ m ↔ Crowded notes key := by
  constructor
  · intro hm
    obtain ⟨x, hx, y, hy, hne, hagree⟩ := h.deep (Nat.lt_of_lt_of_le (by decide) hm)
    by_cases hxkey : x.key = key
    · refine ⟨y, hy, fun hykey => hne (hxkey.trans hykey.symm), fun j hj => ?_⟩
      exact (hagree j (by omega)).2
    · exact ⟨x, hx, hxkey, fun j hj => (hagree j (by omega)).1⟩
  · rintro ⟨x, hx, hne, hagree⟩
    by_contra hm
    have hunder : Under pre x.key := (under_iff h.under).mpr fun j hj => by
      rw [h.length_eq] at hj
      exact hagree j (by omega)
    have hmem := (h.mem x).mpr ⟨hx, hunder⟩
    rw [notes_note, mem_singleton] at hmem
    exact hne (hmem ▸ hl)

/-- **A removal** from the root: it fails if the stack of ancestors is too short, and otherwise the
note of the key is gone. -/
theorem noteTreeRemove_spec {root : IntNode algo} (h : NodeWF [] root) (key : Oid algo) :
    ((∃ l ∈ nodeNotes root, l.key = key) ∧ Crowded (nodeNotes root) key ∧
        noteTreeRemove root key = none) ∨
      (((∃ l ∈ nodeNotes root, l.key = key) → ¬ Crowded (nodeNotes root) key) ∧
        ∃ root' old, noteTreeRemove root key = some (root', old) ∧ NodeWF [] root' ∧
          ∀ l, l ∈ nodeNotes root' ↔ l ∈ nodeNotes root ∧ l.key ≠ key) := by
  obtain ⟨pre, hfound, -⟩ := noteTreeSearch_spec (n := 0) rfl h (under_nil key)
  have hmiss : ∀ (hno : ¬ ∃ l ∈ nodeNotes root, l.key = key) (l : LeafNode algo),
      l ∈ nodeNotes root ↔ l ∈ nodeNotes root ∧ l.key ≠ key := fun hno l =>
    (and_iff_left_of_imp fun hl heq => hno ⟨l, hl, heq⟩).symm
  have hpresent : ∀ l ∈ nodeNotes root, l.key = key → l ∈ (noteTreeSearch root 0 key).2.notes := by
    rintro l hl rfl
    exact (hfound.mem l).mpr ⟨hl, hfound.under⟩
  unfold noteTreeRemove
  generalize noteTreeSearch root 0 key = out at hfound hpresent ⊢
  obtain ⟨m, p⟩ := out
  cases p with
  | null =>
    have hno : ¬ ∃ l ∈ nodeNotes root, l.key = key := fun ⟨l, hl, hkey⟩ =>
      not_mem_nil (hpresent l hl hkey)
    exact .inr ⟨fun hyes => absurd hyes hno, root, none, rfl, h, hmiss hno⟩
  | internal a => exact absurd hfound.leaf (by simp [Slot.isInternal])
  | note l =>
    dsimp only
    by_cases hl : l.key = key
    · have hmem : l ∈ nodeNotes root := ((hfound.mem l).mp (mem_singleton_self l)).1
      rw [if_pos hl]
      split_ifs with hm
      · exact .inl ⟨⟨l, hmem, hl⟩, (hfound.level_iff hl).mp hm, rfl⟩
      refine .inr ⟨fun _ hcrowded => hm ((hfound.level_iff hl).mpr hcrowded), _, _, rfl, ?_⟩
      have hslot : l ∈ (root (getNibble 0 key)).notes := by
        have := h.mem_iff.mp hmem
        rwa [hl] at this
      obtain ⟨hwf, hnotes, -⟩ := unwindFrom_spec key (n := 0) rfl (h (getNibble 0 key))
        ⟨l, hslot, hl⟩
      exact ⟨h.update hwf, h.mem_update_removed hnotes⟩
    · have hno : ¬ ∃ x ∈ nodeNotes root, x.key = key := fun ⟨x, hx, hkey⟩ =>
        hl (mem_singleton.mp (hpresent x hx hkey) ▸ hkey)
      grind

/-! ## Insertion -/

/-- A node with one note. -/
def singleNode (n : Nat) (l : LeafNode algo) : IntNode algo :=
  Function.update emptyNode (getNibble n l.key) (.note l)

/-- The first note of a new node. -/
theorem noteTreeInsert_emptyNode (odb : Odb algo σ) (combine : CombineNotes) (fuel n : Nat)
    (hl : l.val ≠ nullOid algo) (s : σ) :
    noteTreeInsert odb combine (fuel + 1) emptyNode n l s = some (0, singleNode n l, s) := by
  have hsearch : noteTreeSearch emptyNode n l.key = (n, .null) := rfl
  rw [noteTreeInsert, hsearch]
  rw [if_neg hl]
  rfl

theorem notes_emptyNode (x : LeafNode algo) : x ∉ nodeNotes (emptyNode : IntNode algo) := by
  rw [mem_nodeNotes]
  rintro ⟨i, hi⟩
  exact not_mem_nil hi

theorem nodeWF_emptyNode (pre : List (Fin 16)) : NodeWF pre (emptyNode : IntNode algo) :=
  fun _ => trivial

/-- A slot in a node with one note. -/
theorem mem_update_singleNode {x : LeafNode algo} {i : Fin 16} :
    x ∈ nodeNotes (Function.update (singleNode n l) i s) ↔
      x ∈ s.notes ∨ i ≠ getNibble n l.key ∧ x = l := by
  rw [mem_nodeNotes_update]
  refine or_congr_right ⟨fun ⟨j, hj, hx⟩ => ?_, fun ⟨hi, hx⟩ => ?_⟩
  · unfold singleNode at hx
    by_cases hjl : j = getNibble n l.key
    · subst hjl
      rw [Function.update_self, notes_note, mem_singleton] at hx
      exact ⟨Ne.symm hj, hx⟩
    · rw [Function.update_of_ne hjl] at hx
      cases hx
  · refine ⟨getNibble n l.key, Ne.symm hi, ?_⟩
    rw [singleNode, Function.update_self, hx]
    exact mem_singleton_self l

/-- **Two notes in a new node**: nodes are added until their digits differ. -/
theorem noteTreeInsert_singleNode (odb : Odb algo σ) (combine : CombineNotes)
    (l entry : LeafNode algo) (hne : l.key ≠ entry.key) (hl : l.val ≠ nullOid algo)
    (hentry : entry.val ≠ nullOid algo) (fuel : Nat) (hfuel : 2 * algo.rawsz ≤ pre.length + fuel)
    (hunder : Under pre l.key) (hunder' : Under pre entry.key) (s : σ) :
    ∃ node, noteTreeInsert odb combine fuel (singleNode pre.length l) pre.length entry s =
        some (0, node, s) ∧ (Slot.internal node).WF pre ∧
      ∀ x, x ∈ nodeNotes node ↔ x = l ∨ x = entry := by
  have hdone : ∀ {pre : List (Fin 16)} {node : IntNode algo}, NodeWF pre node →
      (∀ x, x ∈ nodeNotes node ↔ x = l ∨ x = entry) → (Slot.internal node).WF pre :=
    fun hwf hnotes => wf_internal.mpr
      ⟨⟨l, (hnotes l).mpr (.inl rfl), entry, (hnotes entry).mpr (.inr rfl), hne⟩, hwf⟩
  induction fuel generalizing pre with
  | zero =>
    have := under_length_lt hne hunder hunder'
    omega
  | succ fuel ih =>
    have hnode : NodeWF pre (singleNode pre.length l) :=
      (nodeWF_emptyNode pre).update (under_concat.mpr ⟨hunder, rfl⟩)
    rw [noteTreeInsert]
    by_cases hdigit : getNibble pre.length entry.key = getNibble pre.length l.key
    · have hslot : singleNode pre.length l (getNibble pre.length entry.key) = .note l := by
        rw [hdigit, singleNode, Function.update_self]
      have hsearch : noteTreeSearch (singleNode pre.length l) pre.length entry.key =
          (pre.length, .note l) := by
        rw [noteTreeSearch, hslot, searchFrom]
      rw [hsearch]
      dsimp only
      rw [if_neg hne, if_neg hentry]
      have hpre' : (pre ++ [getNibble pre.length l.key]).length = pre.length + 1 := length_append
      have hu : Under (pre ++ [getNibble pre.length l.key]) l.key := under_concat.mpr ⟨hunder, rfl⟩
      have hu' : Under (pre ++ [getNibble pre.length l.key]) entry.key :=
        under_concat.mpr ⟨hunder', hdigit⟩
      have hshort := under_length_lt hne hu hu'
      obtain ⟨node, hinsert, hwf, hnotes⟩ := ih (by omega) hu hu'
      rw [hpre'] at hinsert hshort
      obtain ⟨fuel, rfl⟩ : ∃ k, fuel = k + 1 := ⟨fuel - 1, by omega⟩
      rw [noteTreeInsert_emptyNode odb combine fuel _ hl]
      dsimp only
      rw [if_neg (not_not.mpr rfl), hinsert]
      dsimp only
      have hstore : noteTreeStore (singleNode pre.length l) pre.length entry.key (.internal node) =
          Function.update (singleNode pre.length l) (getNibble pre.length l.key) (.internal node) := by
        rw [noteTreeStore, hslot, storeFrom, hdigit]
      rw [hstore]
      have hall : ∀ x, x ∈ nodeNotes (Function.update (singleNode pre.length l)
          (getNibble pre.length l.key) (.internal node)) ↔ x = l ∨ x = entry := by
        intro x
        rw [mem_update_singleNode, notes_internal, hnotes]
        exact or_iff_left fun h => h.1 rfl
      exact ⟨_, rfl, hdone (hnode.update hwf) hall, hall⟩
    · have hslot : singleNode pre.length l (getNibble pre.length entry.key) = .null := by
        rw [singleNode, Function.update_of_ne hdigit]
        rfl
      have hsearch : noteTreeSearch (singleNode pre.length l) pre.length entry.key =
          (pre.length, .null) := by
        rw [noteTreeSearch, hslot, searchFrom]
      rw [hsearch]
      rw [if_neg hentry]
      have hstore : noteTreeStore (singleNode pre.length l) pre.length entry.key (.note entry) =
          Function.update (singleNode pre.length l) (getNibble pre.length entry.key)
            (.note entry) := by
        rw [noteTreeStore, hslot, storeFrom]
      rw [hstore]
      have hall : ∀ x, x ∈ nodeNotes (Function.update (singleNode pre.length l)
          (getNibble pre.length entry.key) (.note entry)) ↔ x = l ∨ x = entry := by
        intro x
        rw [mem_update_singleNode, notes_note, mem_singleton, or_comm]
        exact or_congr_left (and_iff_right hdigit)
      exact ⟨_, rfl, hdone (hnode.update (under_concat.mpr ⟨hunder', rfl⟩)) hall, hall⟩

/-! ## The notes determine the tree -/

/-- A slot without notes is empty. -/
theorem Slot.WF.eq_null (h : s.WF pre) (hnone : ∀ x, x ∉ s.notes) : s = .null := by
  by_contra hs
  obtain ⟨x, hx⟩ := h.exists_note hs
  exact hnone x hx

/-- A node has more than one note below it. -/
theorem Slot.WF.not_single {a : IntNode algo} (h : (Slot.internal a).WF pre) (l : LeafNode algo) :
    ¬ ∀ x ∈ (Slot.internal a).notes, x = l := by
  intro hall
  obtain ⟨x, hx, y, hy, hne⟩ := h.1
  exact hne (by rw [hall x hx, hall y hy])

/-- **Well formed slots with the same notes are equal.** -/
theorem Slot.WF.ext {s' : Slot algo} (h : s.WF pre) (h' : s'.WF pre)
    (hnotes : ∀ l, l ∈ s.notes ↔ l ∈ s'.notes) : s = s' := by
  induction s generalizing s' pre with
  | null => exact (h'.eq_null fun x hx => not_mem_nil ((hnotes x).mpr hx)).symm
  | note l =>
    cases s' with
    | null => exact absurd ((hnotes l).mp (mem_singleton_self l)) not_mem_nil
    | note l' =>
      have := (hnotes l).mp (mem_singleton_self l)
      rw [mem_singleton.mp this]
    | internal a =>
      exact absurd (fun x hx => mem_singleton.mp ((hnotes x).mpr hx)) (h'.not_single l)
  | internal a ih =>
    cases s' with
    | null => exact h.eq_null fun x hx => not_mem_nil ((hnotes x).mp hx)
    | note l =>
      exact absurd (fun x hx => mem_singleton.mp ((hnotes x).mp hx)) (h.not_single l)
    | internal a' =>
      have hnode : NodeWF pre a := h.2
      have hnode' : NodeWF pre a' := h'.2
      congr 1
      funext i
      refine ih i (hnode i) (hnode' i) fun l => ?_
      rw [hnode.mem_slot_iff, hnode'.mem_slot_iff]
      exact and_congr_left fun _ => hnotes l

/-- **Trees with the same notes are equal.** -/
theorem NodeWF.ext {tree' : IntNode algo} (h : NodeWF pre tree) (h' : NodeWF pre tree')
    (hnotes : ∀ l, l ∈ nodeNotes tree ↔ l ∈ nodeNotes tree') : tree = tree' := by
  funext i
  refine (h i).ext (h' i) fun l => ?_
  rw [h.mem_slot_iff, h'.mem_slot_iff]
  exact and_congr_left fun _ => hnotes l

end GitCore.Notes
