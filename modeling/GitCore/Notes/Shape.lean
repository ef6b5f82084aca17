import GitCore.Notes.Tree
import Mathlib.Data.List.FinRange

/-! # The shape of a notes tree

In a well formed tree every note lies on the path of its digits, and every node but the root has
notes of two keys below it. Searching, storing and removing are described by the notes of the tree;
from the notes the shape follows. -/

namespace GitCore.Notes

open List
open Function (update update_of_ne update_self)

variable {algo : HashAlgo}

/-! ## Digits -/

/-- The id starts with some digits. -/
def Under (pre : List (Fin 16)) (key : Oid algo) : Prop :=
  pre = (List.range pre.length).map fun n => getNibble n key

theorem under_nil (key : Oid algo) : Under [] key := rfl

variable {i : Fin 16} {pre : List (Fin 16)} {key key' : Oid algo}

/-- One digit more. -/
theorem under_concat : Under (pre ++ [i]) key ↔ Under pre key ∧ getNibble pre.length key = i := by
  unfold Under
  rw [length_append, length_singleton, range_succ, map_append]
  constructor
  · intro h
    obtain ⟨hpre, hi⟩ := append_inj h (by simp)
    exact ⟨hpre, (List.cons.inj hi).1.symm⟩
  grind

/-- The digits themselves. -/
theorem under_iff (h : Under pre key) :
    Under pre key' ↔ ∀ n < pre.length, getNibble n key' = getNibble n key := by
  constructor
  · intro h' n hn
    have hmap := h'.symm.trans h
    exact map_inj_left.mp hmap n (mem_range.mpr hn)
  · intro hall
    refine h.trans (map_congr_left fun n hn => ?_)
    exact (hall n (mem_range.mp hn)).symm

/-- The digit of a byte's upper or lower half. -/
theorem getNibble_val (n : Nat) (key : Oid algo) :
    (getNibble n key).val =
      if n % 2 = 0 then (key.1.getD (n / 2) 0).toNat / 16 else (key.1.getD (n / 2) 0).toNat % 16 := by
  have hbyte := (key.1.getD (n / 2) 0).toNat_lt
  rw [getNibble, Nat.shiftRight_eq_div_pow n 1, Fin.val_ofNat]
  rcases Nat.mod_two_eq_zero_or_one n with h | h
  · rw [h, if_pos rfl, Nat.shiftRight_eq_div_pow]
    change (key.1.getD (n / 2) 0).toNat / 16 % 16 = _
    omega
  · rw [h, if_neg Nat.one_ne_zero]
    rfl

/-- Equal digits make equal bytes. -/
theorem byte_eq_of_getNibble {i : Nat} (h0 : getNibble (2 * i) key = getNibble (2 * i) key')
    (h1 : getNibble (2 * i + 1) key = getNibble (2 * i + 1) key') :
    key.1.getD i 0 = key'.1.getD i 0 := by
  have h0' := congrArg Fin.val h0
  have h1' := congrArg Fin.val h1
  rw [getNibble_val, getNibble_val, if_pos (by omega), if_pos (by omega),
    show 2 * i / 2 = i by omega] at h0'
  rw [getNibble_val, getNibble_val, if_neg (by omega), if_neg (by omega),
    show (2 * i + 1) / 2 = i by omega] at h1'
  exact UInt8.toNat_inj.mp (by omega)

/-- **An id is given by its digits.** -/
theorem oid_eq_of_getNibble
    (h : ∀ n < 2 * algo.rawsz, getNibble n key = getNibble n key') : key = key' := by
  refine Subtype.ext (ext_getElem (key.2.trans key'.2.symm) fun i hi hi' => ?_)
  have := byte_eq_of_getNibble (h (2 * i) (by omega)) (h (2 * i + 1) (by omega))
  grind

variable {n : Nat}

/-- **The order of the digits** is the order of the ids. -/
theorem lt_of_getNibble (hn : n < 2 * algo.rawsz)
    (hbefore : ∀ j < n, getNibble j key = getNibble j key')
    (hlt : getNibble n key < getNibble n key') : key.1 < key'.1 := by
  refine List.lt_iff_exists.mpr (.inr ⟨n / 2, by omega, by omega, fun j hj => ?_, ?_⟩)
  · have := byte_eq_of_getNibble (hbefore (2 * j) (by omega)) (hbefore (2 * j + 1) (by omega))
    grind
  have hbyte : key.1.getD (n / 2) 0 < key'.1.getD (n / 2) 0 := by
    rw [UInt8.lt_iff_toNat_lt]
    rw [Fin.lt_def, getNibble_val, getNibble_val] at hlt
    by_cases heven : n % 2 = 0
    · rw [if_pos heven, if_pos heven] at hlt
      omega
    have hhigh := congrArg Fin.val (hbefore (n - 1) (by omega))
    rw [getNibble_val, getNibble_val, if_pos (by omega), if_pos (by omega),
      show (n - 1) / 2 = n / 2 by omega] at hhigh
    rw [if_neg heven, if_neg heven] at hlt
    omega
  grind

/-! ## Notes of a tree -/

/-- The notes of a slot, in the order of the traversal. -/
def Slot.notes : Slot algo → List (LeafNode algo)
  | .null => []
  | .note l => [l]
  | .internal a => (List.finRange 16).flatMap fun i => (a i).notes

/-- The notes of a node. -/
def nodeNotes (tree : IntNode algo) : List (LeafNode algo) :=
  (List.finRange 16).flatMap fun i => (tree i).notes

@[simp] theorem notes_null : (Slot.null : Slot algo).notes = [] := rfl

@[simp] theorem notes_note (l : LeafNode algo) : (Slot.note l).notes = [l] := rfl

theorem notes_internal (a : IntNode algo) : (Slot.internal a).notes = nodeNotes a := rfl

variable {l : LeafNode algo} {tree a : IntNode algo}

theorem mem_nodeNotes : l ∈ nodeNotes tree ↔ ∃ i, l ∈ (tree i).notes := by
  simp [nodeNotes]

/-- There are notes of two keys. -/
def TwoKeys (notes : List (LeafNode algo)) : Prop :=
  ∃ l ∈ notes, ∃ l' ∈ notes, l.key ≠ l'.key

/-- **A well formed slot** on the path of some digits. -/
def Slot.WF : List (Fin 16) → Slot algo → Prop
  | _, .null => True
  | pre, .note l => Under pre l.key
  | pre, .internal a => TwoKeys (nodeNotes a) ∧ ∀ i, (a i).WF (pre ++ [i])

/-- A well formed node, which may be the root. -/
def NodeWF (pre : List (Fin 16)) (tree : IntNode algo) : Prop := ∀ i, (tree i).WF (pre ++ [i])

theorem wf_internal :
    (Slot.internal a).WF pre ↔ TwoKeys (nodeNotes a) ∧ NodeWF pre a := Iff.rfl

variable {s p p' : Slot algo}

/-- The notes of a slot lie on its path. -/
theorem Slot.WF.under (h : s.WF pre) (hl : l ∈ s.notes) : Under pre l.key := by
  induction s generalizing pre with
  | null => exact absurd hl not_mem_nil
  | note l' =>
    rw [mem_singleton.mp hl]
    exact h
  | internal a ih =>
    obtain ⟨i, hi⟩ := mem_nodeNotes.mp hl
    exact (under_concat.mp (ih i (h.2 i) hi)).1

/-- A note of a node is in the slot of its digit. -/
theorem NodeWF.mem_iff (h : NodeWF pre tree) :
    l ∈ nodeNotes tree ↔ l ∈ (tree (getNibble pre.length l.key)).notes := by
  refine ⟨fun hl => ?_, fun hl => mem_nodeNotes.mpr ⟨_, hl⟩⟩
  obtain ⟨i, hi⟩ := mem_nodeNotes.mp hl
  rwa [(under_concat.mp ((h i).under hi)).2]

/-- The notes of a slot are the notes of its node with the digit of the slot. -/
theorem NodeWF.mem_slot_iff (h : NodeWF pre tree) :
    l ∈ (tree i).notes ↔ l ∈ nodeNotes tree ∧ getNibble pre.length l.key = i := by
  rw [h.mem_iff]
  constructor
  · intro hl
    have hi := (under_concat.mp ((h i).under hl)).2
    rw [hi]
    exact ⟨hl, rfl⟩
  · rintro ⟨hl, rfl⟩
    exact hl

/-- A slot that is not empty has a note. -/
theorem Slot.WF.exists_note (h : s.WF pre) (hs : s ≠ .null) : ∃ l, l ∈ s.notes := by
  cases s with
  | null => exact absurd rfl hs
  | note l => exact ⟨l, mem_singleton_self l⟩
  | internal a =>
    obtain ⟨l, hl, -⟩ := h.1
    exact ⟨l, hl⟩

/-- Different ids do not share all digits. -/
theorem under_length_lt (hne : key ≠ key')
    (h : Under pre key) (h' : Under pre key') : pre.length < 2 * algo.rawsz := by
  by_contra hge
  exact hne (oid_eq_of_getNibble fun n hn => (under_iff h').mp h n (by omega))

/-- Well formed nodes are not deeper than the digits go. -/
theorem Slot.WF.length_lt (h : (Slot.internal a).WF pre) : pre.length < 2 * algo.rawsz := by
  obtain ⟨l, hl, l', hl', hne⟩ := h.1
  exact under_length_lt hne (h.under hl) (h.under hl')

/-- The notes of a node are in order if those of its slots are. -/
theorem NodeWF.sorted_of_slots (h : NodeWF pre tree) (hlen : pre.length < 2 * algo.rawsz)
    (hslots : ∀ i, (tree i).notes.Pairwise fun l l' => l.key.1 < l'.key.1) :
    (nodeNotes tree).Pairwise fun l l' => l.key.1 < l'.key.1 := by
  refine pairwise_flatMap.mpr ⟨fun i _ => hslots i, ?_⟩
  refine (pairwise_lt_finRange 16).imp fun {i j} hij l hl l' hl' => ?_
  obtain ⟨hunder, hdigit⟩ := under_concat.mp ((h i).under hl)
  obtain ⟨hunder', hdigit'⟩ := under_concat.mp ((h j).under hl')
  exact lt_of_getNibble hlen ((under_iff hunder').mp hunder) (by rwa [hdigit, hdigit'])

/-- **The notes are in ascending order.** -/
theorem Slot.WF.sorted (h : s.WF pre) : s.notes.Pairwise fun l l' => l.key.1 < l'.key.1 := by
  induction s generalizing pre with
  | null => exact .nil
  | note l => exact pairwise_singleton _ l
  | internal a ih => exact NodeWF.sorted_of_slots h.2 h.length_lt fun i => ih i (h.2 i)

/-! ## Searching and storing -/

/-- What a search among some notes finds: the slot of a node of level `m`, with the notes that start
with some digits of the key. -/
structure Found (key : Oid algo) (notes : List (LeafNode algo)) (n m : Nat) (p : Slot algo)
    (pre : List (Fin 16)) : Prop where
  length_eq : pre.length = m + 1
  under : Under pre key
  wf : p.WF pre
  leaf : p.isInternal = false
  mem : ∀ l, l ∈ p.notes ↔ l ∈ notes ∧ Under pre l.key
  level : n ≤ m
  /-- Below the first node there are notes of two keys. -/
  deep : n < m → ∃ l ∈ notes, ∃ l' ∈ notes, l.key ≠ l'.key ∧
    ∀ j < m, getNibble j l.key = getNibble j key ∧ getNibble j l'.key = getNibble j key

/-- What an assignment to the slot that was found makes of some notes. -/
def Stored (notes : List (LeafNode algo)) (p p' : Slot algo) (notes' : List (LeafNode algo)) : Prop :=
  ∀ l, l ∈ notes' ↔ l ∈ p'.notes ∨ l ∈ notes ∧ l ∉ p.notes

/-- The new slot has all keys of the old one. -/
def KeepsKeys (p p' : Slot algo) : Prop := ∀ l ∈ p.notes, ∃ l' ∈ p'.notes, l'.key = l.key

/-- Stored notes keep two keys. -/
theorem Stored.twoKeys {notes notes' : List (LeafNode algo)}
    (h : Stored notes p p' notes') (hkeys : KeepsKeys p p') (htwo : TwoKeys notes) :
    TwoKeys notes' := by
  have hkeep : ∀ l ∈ notes, ∃ l' ∈ notes', l'.key = l.key := by
    intro l hl
    by_cases hp : l ∈ p.notes
    · obtain ⟨l', hl', hkey⟩ := hkeys l hp
      exact ⟨l', (h l').mpr (.inl hl'), hkey⟩
    · exact ⟨l, (h l).mpr (.inr ⟨hl, hp⟩), rfl⟩
  obtain ⟨l, hl, l', hl', hne⟩ := htwo
  obtain ⟨k, hk, hkey⟩ := hkeep l hl
  obtain ⟨k', hk', hkey'⟩ := hkeep l' hl'
  exact ⟨k, hk, k', hk', by rwa [hkey, hkey']⟩

theorem mem_nodeNotes_update :
    l ∈ nodeNotes (update tree i s) ↔ l ∈ s.notes ∨ ∃ j ≠ i, l ∈ (tree j).notes := by
  rw [mem_nodeNotes]
  constructor
  · grind
  · rintro (hl | ⟨j, hij, hj⟩)
    · exact ⟨i, by rwa [update_self]⟩
    · exact ⟨j, by rwa [update_of_ne hij]⟩

theorem NodeWF.update (h : NodeWF pre tree) (hs : s.WF (pre ++ [i])) :
    NodeWF pre (update tree i s) := by
  intro j
  by_cases hij : j = i
  · subst hij
    rwa [update_self]
  · rw [update_of_ne hij]
    exact h j

/-- The notes of a node with another slot. -/
theorem NodeWF.mem_update (h : NodeWF pre tree) : l ∈ nodeNotes (Function.update tree i s) ↔
    l ∈ s.notes ∨ l ∈ nodeNotes tree ∧ getNibble pre.length l.key ≠ i := by
  rw [mem_nodeNotes_update]
  refine or_congr_right ⟨fun ⟨j, hj, hl⟩ => ?_, fun ⟨hl, hne⟩ => ⟨_, hne, h.mem_iff.mp hl⟩⟩
  obtain ⟨hnode, rfl⟩ := h.mem_slot_iff.mp hl
  exact ⟨hnode, hj⟩

/-- What is found in the slot of the key's digit is found in the node. -/
theorem Found.of_slot (h : NodeWF pre tree) {m : Nat} {pre' : List (Fin 16)}
    (hfound : Found key (tree (getNibble pre.length key)).notes pre.length m p pre') :
    Found key (nodeNotes tree) pre.length m p pre' := by
  refine ⟨hfound.length_eq, hfound.under, hfound.wf, hfound.leaf, fun l => ?_, hfound.level,
    fun hm => ?_⟩
  · rw [hfound.mem]
    refine and_congr_left fun hl => ?_
    have hdigit : getNibble pre.length l.key = getNibble pre.length key :=
      (under_iff hfound.under).mp hl _ (by have := hfound.level; rw [hfound.length_eq]; omega)
    rw [h.mem_slot_iff]
    exact and_iff_left hdigit
  · obtain ⟨l, hl, l', hl', hdeep⟩ := hfound.deep hm
    exact ⟨l, mem_nodeNotes.mpr ⟨_, hl⟩, l', mem_nodeNotes.mpr ⟨_, hl'⟩, hdeep⟩

/-- What is stored in the slot of the key's digit is stored in the node. -/
theorem Stored.of_slot (h : NodeWF pre tree) (key : Oid algo)
    (hp : ∀ l ∈ p.notes, l ∈ (tree (getNibble pre.length key)).notes)
    (hstored : Stored (tree (getNibble pre.length key)).notes p p' s.notes) :
    Stored (nodeNotes tree) p p'
      (nodeNotes (update tree (getNibble pre.length key) s)) := by
  intro l
  rw [h.mem_update, hstored l, h.mem_slot_iff, or_assoc]
  refine or_congr_right ?_
  by_cases hdigit : getNibble pre.length l.key = getNibble pre.length key
  · simp [hdigit]
  · have hnot : l ∉ p.notes := fun hin => hdigit (h.mem_slot_iff.mp (hp l hin)).2
    simp [hdigit, hnot]

/-- **A search in a slot** finds where a key belongs, and stores there. -/
theorem searchFrom_spec (key : Oid algo) (hpre : pre.length = n + 1)
    (h : s.WF pre) (hkey : Under pre key) :
    ∃ pre', Found key s.notes n (searchFrom key s n).1 (searchFrom key s n).2 pre' ∧
      ∀ p', p'.WF pre' → KeepsKeys (searchFrom key s n).2 p' →
        (storeFrom key p' s n).WF pre ∧
          Stored s.notes (searchFrom key s n).2 p' (storeFrom key p' s n).notes := by
  induction s generalizing n pre with
  | null =>
    refine ⟨pre, ⟨hpre, hkey, h, rfl, fun l => ?_, Nat.le_refl n, fun hn => absurd hn (lt_irrefl n)⟩,
      fun p' hp' _ => ⟨hp', fun l => ?_⟩⟩
    · simp [searchFrom]
    · simp [storeFrom]
  | note l' =>
    refine ⟨pre, ⟨hpre, hkey, h, rfl, fun l => ?_, Nat.le_refl n, fun hn => absurd hn (lt_irrefl n)⟩,
      fun p' hp' _ => ⟨hp', fun l => ?_⟩⟩
    · refine (and_iff_left_of_imp fun hl => ?_).symm
      exact h.under hl
    · simp [searchFrom, storeFrom]
  | internal a ih =>
    obtain ⟨htwo, hnode⟩ := wf_internal.mp h
    have hunder : Under (pre ++ [getNibble (n + 1) key]) key :=
      under_concat.mpr ⟨hkey, by rw [hpre]⟩
    obtain ⟨pre', hfound, hstore⟩ := ih (getNibble (n + 1) key) (n := n + 1)
      (by rw [length_append, hpre]; rfl) (hnode _) hunder
    simp only [searchFrom, storeFrom]
    rw [← hpre] at hfound hstore ⊢
    have hlevel := hfound.level
    have hfound' := hfound.of_slot hnode
    refine ⟨pre', ⟨hfound'.length_eq, hfound'.under, hfound'.wf, hfound'.leaf, hfound'.mem, by omega,
      fun _ => ?_⟩, fun p' hp' hkeys => ?_⟩
    · by_cases hm : pre.length < (searchFrom key (a (getNibble pre.length key)) pre.length).1
      · exact hfound'.deep hm
      obtain ⟨l, hl, l', hl', hne⟩ := htwo
      have hagree : ∀ l ∈ (Slot.internal a).notes, ∀ j < pre.length,
          getNibble j l.key = getNibble j key := fun l hl =>
        (under_iff hkey).mp (h.under hl)
      exact ⟨l, hl, l', hl', hne, fun j hj => ⟨hagree l hl j (by omega), hagree l' hl' j (by omega)⟩⟩
    · obtain ⟨hwf, hstored⟩ := hstore p' hp' hkeys
      have hstored' := Stored.of_slot hnode key (fun l hl => ((hfound.mem l).mp hl).1) hstored
      exact ⟨wf_internal.mpr ⟨hstored'.twoKeys hkeys htwo, hnode.update hwf⟩, hstored'⟩

/-- **A search in a node** finds where a key belongs, and stores there. -/
theorem noteTreeSearch_spec (hpre : pre.length = n) (h : NodeWF pre tree) (hkey : Under pre key) :
    ∃ pre', Found key (nodeNotes tree) n (noteTreeSearch tree n key).1
        (noteTreeSearch tree n key).2 pre' ∧
      ∀ p', p'.WF pre' → KeepsKeys (noteTreeSearch tree n key).2 p' →
        NodeWF pre (noteTreeStore tree n key p') ∧
          Stored (nodeNotes tree) (noteTreeSearch tree n key).2 p'
            (nodeNotes (noteTreeStore tree n key p')) := by
  subst hpre
  have hunder : Under (pre ++ [getNibble pre.length key]) key := under_concat.mpr ⟨hkey, rfl⟩
  obtain ⟨pre', hfound, hstore⟩ := searchFrom_spec key (n := pre.length)
    (length_append) (h _) hunder
  refine ⟨pre', hfound.of_slot h, fun p' hp' hkeys => ?_⟩
  obtain ⟨hwf, hstored⟩ := hstore p' hp' hkeys
  exact ⟨h.update hwf, Stored.of_slot h key (fun l hl => ((hfound.mem l).mp hl).1) hstored⟩

/-- **A find** gives the note of the key. -/
theorem noteTreeFind_eq_some_iff (h : NodeWF [] tree) :
    noteTreeFind tree 0 key = some l ↔ l ∈ nodeNotes tree ∧ l.key = key := by
  obtain ⟨pre', hfound, -⟩ := noteTreeSearch_spec (n := 0) rfl h (under_nil key)
  unfold noteTreeFind
  constructor
  · intro hl
    cases hp : (noteTreeSearch tree 0 key).2 with
    | null | internal => simp [hp] at hl
    | note l' =>
      simp only [hp, Option.ite_none_right_eq_some, Option.some.injEq] at hl
      obtain ⟨hkey, rfl⟩ := hl
      have := (hfound.mem l').mp (by rw [hp]; exact mem_singleton_self l')
      exact ⟨this.1, hkey.symm⟩
  · rintro ⟨hl, rfl⟩
    have hmem := (hfound.mem l).mpr ⟨hl, hfound.under⟩
    have hleaf := hfound.leaf
    cases hp : (noteTreeSearch tree 0 l.key).2 with
    | null => simp [hp] at hmem
    | internal a => simp [hp, Slot.isInternal] at hleaf
    | note l' =>
      rw [hp, notes_note, mem_singleton] at hmem
      simp [hmem]

end GitCore.Notes
