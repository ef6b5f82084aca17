import GitCore.Reftable.Merged

/-! # The queue of the merged iterator

The comparison `pq_less` is the strict order of a rank, so that the heap library applies: the root
of the queue is the loaded sub-iterator with the smallest record, and among equal records the one
of the newest table. -/

namespace GitCore.Reftable

open BinaryHeap

variable {α : Type} {vt : RecordVtable α} {n : Nat}

/-- The key of a buffer. -/
def bufKey (vt : RecordVtable α) : Option α → WithBot Bytes
  | none => ⊥
  | some r => (vt.key r : WithBot Bytes)

/-- What the queue orders a sub-iterator by: its record, then its index from the top. -/
def pqRank (vt : RecordVtable α) (rec : Fin n → Option α) (i : Fin n) :
    WithBot Bytes ×ₗ (Fin n)ᵒᵈ :=
  toLex (bufKey vt (rec i), OrderDual.toDual i)

/-- The order the heap keeps. -/
def PqLe (vt : RecordVtable α) (rec : Fin n → Option α) (i j : Fin n) : Prop :=
  pqRank vt rec i ≤ pqRank vt rec j

instance (rec : Fin n → Option α) : IsTrans (Fin n) (PqLe vt rec) :=
  ⟨fun _ _ _ => le_trans⟩

instance (rec : Fin n → Option α) : Std.Refl (PqLe vt rec) :=
  ⟨fun _ => le_rfl⟩

/-- Only the buffers of the two sub-iterators matter. -/
theorem PqLe.congr {rec rec' : Fin n → Option α} {i j : Fin n} (hi : rec i = rec' i)
    (hj : rec j = rec' j) : PqLe vt rec i j ↔ PqLe vt rec' i j := by
  simp only [PqLe, pqRank, hi, hj]

/-- The order of two loaded sub-iterators. -/
theorem PqLe.loaded {rec : Fin n → Option α} {i j : Fin n} {x y : α} (hx : rec i = some x)
    (hy : rec j = some y) :
    PqLe vt rec i j ↔ vt.key x < vt.key y ∨ vt.key x = vt.key y ∧ j ≤ i := by
  have hlt : ((vt.key x : WithBot Bytes) < vt.key y) ↔ vt.key x < vt.key y := WithBot.coe_lt_coe
  have heq : ((vt.key x : WithBot Bytes) = vt.key y) ↔ vt.key x = vt.key y := WithBot.coe_inj
  rw [← hlt, ← heq]
  simp only [PqLe, pqRank, hx, hy]
  exact Prod.Lex.toLex_le_toLex

section Keyed

variable [vt.Keyed]

variable (vt) in
/-- `reftable_record_cmp` compares keys. -/
theorem recordCmp_cases (a b : Option α) :
    recordCmp vt a b = .lt ∧ bufKey vt a < bufKey vt b ∨
      recordCmp vt a b = .eq ∧ bufKey vt a = bufKey vt b ∨
      recordCmp vt a b = .gt ∧ bufKey vt b < bufKey vt a := by
  match a, b with
  | none, none => exact .inr (.inl ⟨rfl, rfl⟩)
  | none, some b => exact .inl ⟨rfl, WithBot.bot_lt_coe _⟩
  | some a, none => exact .inr (.inr ⟨rfl, WithBot.bot_lt_coe _⟩)
  | some a, some b =>
    simp only [recordCmp, bufKey, RecordVtable.Keyed.cmp_eq, WithBot.coe_lt_coe, WithBot.coe_inj,
      bytesCmp_eq_lt, bytesCmp_eq_gt, bytesCmp_eq_eq, and_self]
    exact lt_trichotomy _ _

/-- `pq_less` is the strict order of the ranks. -/
theorem pqLess_iff (rec : Fin n → Option α) (a b : Fin n) :
    pqLess vt rec a b = true ↔ ¬ PqLe vt rec b a := by
  unfold PqLe
  rw [not_le]
  unfold pqLess pqRank
  rw [Prod.Lex.toLex_lt_toLex]
  rcases recordCmp_cases vt (rec a) (rec b) with ⟨hc, h⟩ | ⟨hc, h⟩ | ⟨hc, h⟩
  · simp [hc, h]
  · simp [hc, h]
  · simp [hc, h.not_gt, h.ne']

/-- The end of the sift in `merged_iter_pqueue_add`. -/
theorem pqLess_stopSpec (rec : Fin n → Option α) : StopSpec (PqLe vt rec) (pqLess vt rec) where
  stop_rel := fun p c h => by
    rw [pqLess_iff] at h
    exact le_of_not_ge h
  swap_rel := fun p c h => by
    by_contra hle
    exact absurd ((pqLess_iff rec p c).mpr hle) (by simp [h])

variable {rec : Fin n → Option α} {heap : Array (Fin n)} {i j : Nat} {x y : Fin n}

omit [vt.Keyed] in
/-- `pq_less` on two slots of the heap. -/
theorem pqLessAt_eq (hx : heap[i]? = some x) (hy : heap[j]? = some y) :
    pqLessAt vt rec heap i j = pqLess vt rec x y := by
  simp only [pqLessAt, hx, hy]

omit [vt.Keyed] in
/-- A comparison that holds is between slots of the heap. -/
theorem lt_size_of_pqLessAt (h : pqLessAt vt rec heap i j = true) : i < heap.size := by
  unfold pqLessAt at h
  grind

/-- The order of two slots of the heap, read off the comparison. -/
theorem pqLe_of_pqLessAt (h : pqLessAt vt rec heap i j = true) (hx : heap[i]? = some x)
    (hy : heap[j]? = some y) : PqLe vt rec x y := by
  rw [pqLessAt_eq hx hy] at h
  exact (pqLess_stopSpec rec).stop_rel _ _ h

/-- The order of two slots of the heap when the comparison fails. -/
theorem pqLe_of_not_pqLessAt (h : ¬ pqLessAt vt rec heap i j = true) (hx : heap[i]? = some x)
    (hy : heap[j]? = some y) : PqLe vt rec y x := by
  rw [pqLessAt_eq hx hy] at h
  exact (pqLess_stopSpec rec).swap_rel _ _ (by simpa using h)

omit [vt.Keyed] in
/-- The choice of `merged_iter_pqueue_remove` in one formula: the left child if only it is less
than its parent, the right one if it is less than the smaller of the other two. -/
theorem pqMinChild_cases (rec : Fin n → Option α) (heap : Array (Fin n)) (i : Nat) :
    pqMinChild vt rec heap i = none ∧ ¬ pqLessAt vt rec heap (2 * i + 1) i
        ∧ ¬ pqLessAt vt rec heap (2 * i + 2) i ∨
      pqMinChild vt rec heap i = some (2 * i + 1) ∧ pqLessAt vt rec heap (2 * i + 1) i
        ∧ ¬ pqLessAt vt rec heap (2 * i + 2) (2 * i + 1) ∨
      pqMinChild vt rec heap i = some (2 * i + 2) ∧ pqLessAt vt rec heap (2 * i + 1) i
        ∧ pqLessAt vt rec heap (2 * i + 2) (2 * i + 1) ∨
      pqMinChild vt rec heap i = some (2 * i + 2) ∧ ¬ pqLessAt vt rec heap (2 * i + 1) i
        ∧ pqLessAt vt rec heap (2 * i + 2) i := by
  unfold pqMinChild
  by_cases hj : pqLessAt vt rec heap (2 * i + 1) i = true
  · by_cases hk : pqLessAt vt rec heap (2 * i + 2) (2 * i + 1) = true
    · simp [hj, hk, show ¬ 2 * i + 2 = i by omega]
    · simp [hj, hk, show ¬ 2 * i + 1 = i by omega]
  · by_cases hk : pqLessAt vt rec heap (2 * i + 2) i = true
    · simp [hj, hk, show ¬ 2 * i + 2 = i by omega]
    · simp [hj, hk]

/-- The choice of `merged_iter_pqueue_remove` is a smallest child. -/
theorem pqMinChild_pickSpec (rec : Fin n → Option α) :
    PickSpec (PqLe vt rec) (pqMinChild vt rec) where
  none_rel := fun heap i h j x y hj hpar hx hy => by
    rcases pqMinChild_cases rec heap i with ⟨-, h1, h2⟩ | ⟨h', -⟩ | ⟨h', -⟩ | ⟨h', -⟩
    · rcases (show j = 2 * i + 1 ∨ j = 2 * i + 2 by omega) with rfl | rfl
      · exact pqLe_of_not_pqLessAt h1 hy hx
      · exact pqLe_of_not_pqLessAt h2 hy hx
    all_goals
      rw [h] at h'
      cases h'
  child := fun heap i c h => by
    rcases pqMinChild_cases rec heap i with ⟨h', -⟩ | ⟨h', h1, -⟩ | ⟨h', -, h2⟩ | ⟨h', -, h2⟩ <;>
      rw [h] at h' <;> cases h'
    · exact ⟨by omega, by omega, lt_size_of_pqLessAt h1⟩
    · exact ⟨by omega, by omega, lt_size_of_pqLessAt h2⟩
    · exact ⟨by omega, by omega, lt_size_of_pqLessAt h2⟩
  some_rel := fun heap i c x y h hx hy => by
    rcases pqMinChild_cases rec heap i with ⟨h', -⟩ | ⟨h', h1, -⟩ | ⟨h', h1, h2⟩ | ⟨h', -, h2⟩ <;>
      rw [h] at h' <;> cases h'
    · exact pqLe_of_pqLessAt h1 hx hy
    · have hlt := lt_size_of_pqLessAt h1
      have hz : heap[2 * i + 1]? = some heap[2 * i + 1] := Array.getElem?_eq_getElem hlt
      exact IsTrans.trans _ _ _ (pqLe_of_pqLessAt h2 hx hz) (pqLe_of_pqLessAt h1 hz hy)
    · exact pqLe_of_pqLessAt h2 hx hy
  sibling := fun heap i c h j x y hj hne hpar hx hy => by
    rcases pqMinChild_cases rec heap i with ⟨h', -⟩ | ⟨h', -, h2⟩ | ⟨h', -, h2⟩ | ⟨h', h1, h2⟩ <;>
      rw [h] at h' <;> cases h'
    · obtain rfl : j = 2 * i + 2 := by omega
      exact pqLe_of_not_pqLessAt h2 hy hx
    · obtain rfl : j = 2 * i + 1 := by omega
      exact pqLe_of_pqLessAt h2 hx hy
    obtain rfl : j = 2 * i + 1 := by omega
    have hlt := lt_size_of_pqLessAt h2
    have hz : heap[i]? = some heap[i] := Array.getElem?_eq_getElem (by omega)
    exact IsTrans.trans _ _ _ (pqLe_of_pqLessAt h2 hx hz) (pqLe_of_not_pqLessAt h1 hy hz)

/-- `merged_iter_pqueue_remove` keeps the heap in order and takes its root out. -/
theorem mergedIterPqueueRemove_spec (h : Ordered (PqLe vt rec) heap) {e : Fin n}
    (he : heap[0]? = some e) :
    Ordered (PqLe vt rec) (mergedIterPqueueRemove vt rec heap) ∧
      heap.toList.Perm (e :: (mergedIterPqueueRemove vt rec heap).toList) :=
  h.takeRoot (pqMinChild_pickSpec rec) he

/-- `merged_iter_pqueue_add` keeps the heap in order and puts the entry in. -/
theorem mergedIterPqueueAdd_spec (h : Ordered (PqLe vt rec) heap) (e : Fin n) :
    Ordered (PqLe vt rec) (mergedIterPqueueAdd vt rec heap e) ∧
      (mergedIterPqueueAdd vt rec heap e).toList.Perm (e :: heap.toList) := by
  refine ⟨siftUp_ordered (pqLess_stopSpec rec) _ _ _ (by omega) (h.push e), ?_⟩
  refine (siftUp_perm _ _ _ _).trans ?_
  simp

end Keyed

end GitCore.Reftable
