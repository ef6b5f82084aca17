import GitCore.Reftable.Layout
import GitCore.Reftable.ObjectTree

/-! # Adding refs to a table

The refs that a writer accepts one after the other end up in the chunks of its first section, with
their update indexes made relative, and the objects that they refer to in its tree. -/

namespace GitCore.Reftable

open List Overlay

section Adding

variable (zlib : Zlib) (opts : WriterOptions)

/-- The refs that `reftable_writer_add_ref` accepts, one after the other, and the writer then. -/
def addRefs : Writer → List (RefRecord opts.hashId.size) → Writer × List (RefRecord opts.hashId.size)
  | w, [] => (w, [])
  | w, ref :: refs =>
    match reftableWriterAddRef zlib opts ref w with
    | .error _ w' => addRefs w' refs
    | .ok _ w' =>
      let (w'', accepted) := addRefs w' refs
      (w'', ref :: accepted)

variable {zlib opts} {hdr : Bytes} {w w' : Writer}

/-- The operations of `reftable_writer_add_ref`. -/
theorem reftableWriterAddRef_eq (ref : RefRecord opts.hashId.size) (w : Writer) :
    reftableWriterAddRef zlib opts ref w =
      if ref.updateIndex < w.minUpdateIndex ∨ w.maxUpdateIndex < ref.updateIndex then .error .api w
      else
        match writerAddRecord zlib opts .ref (ref.relative w.minUpdateIndex) w with
        | .ok _ w' => .ok () (writerIndexHashes opts ref w')
        | .error e w' => .error e w' := by
  change (if _ then _ else _ : WriterM Unit) w = _
  split
  · rfl
  change EStateM.bind _ _ w = _
  unfold EStateM.bind
  cases writerAddRecord zlib opts .ref (ref.relative w.minUpdateIndex) w <;> rfl

/-- A table with the refs `accepted` so far, in the chunks `cs` and the block under way. -/
structure AddingRefs (opts : WriterOptions) (hdr : Bytes) (min : UInt64)
    (accepted : List (RefRecord opts.hashId.size))
    (cs : List (Chunk (opts.Record .ref)))
    (rs : List (opts.Record .ref)) (w : Writer) : Prop where
  writing : Writing opts hdr (fun _ => ⟨0, 0, 0, 0⟩) .ref 0 cs rs w
  records_eq : chunkRecords cs ++ rs = accepted.map (RefRecord.relative min)
  minUpdateIndex : w.minUpdateIndex = min
  objectIdLen : w.objectIdLen = 0
  tree_sorted : Run Prod.fst w.objIndexTree
  mem_tree : opts.skipIndexObjects = false → ∀ hash,
    hash ∈ w.objIndexTree.map Prod.fst ↔ ∃ ref ∈ accepted, hash ∈ ref.hashes

section AddingRefs

variable {min : UInt64} {accepted : List (RefRecord opts.hashId.size)}
  {cs : List (Chunk (opts.Record .ref))}
  {rs : List (opts.Record .ref)}

/-- The objects of a ref come into the tree. -/
theorem foldl_indexHash (off : UInt64) (hashes : List Bytes) {tree : List (Bytes × List UInt64)}
    (h : Run Prod.fst tree) :
    Run Prod.fst (hashes.foldl (fun tree hash => indexHash off hash tree) tree) ∧
      ∀ key, key ∈ (hashes.foldl (fun tree hash => indexHash off hash tree) tree).map Prod.fst ↔
        key ∈ hashes ∨ key ∈ tree.map Prod.fst := by
  induction hashes generalizing tree with
  | nil => exact ⟨h, fun key => by simp⟩
  | cons hash hashes ih =>
    obtain ⟨hrun, hmem⟩ := ih (run_indexHash off hash h)
    refine ⟨hrun, fun key => ?_⟩
    rw [foldl_cons, hmem key, mem_keys_indexHash, mem_cons]
    tauto

/-- **`reftable_writer_add_ref`** appends the ref, with its update index made relative, or leaves the
refs as they were. -/
theorem AddingRefs.step (h : AddingRefs opts hdr min accepted cs rs w) (zlib : Zlib)
    (ref : RefRecord opts.hashId.size) :
    match reftableWriterAddRef zlib opts ref w with
    | .ok _ w' => ∃ cs' rs', AddingRefs opts hdr min (accepted ++ [ref]) cs' rs' w'
    | .error _ w' => ∃ cs' rs', AddingRefs opts hdr min accepted cs' rs' w' := by
  have hadded := h.writing.addRecord zlib (by decide) (ref.relative w.minUpdateIndex)
  rw [reftableWriterAddRef_eq]
  split_ifs with hlimits
  · exact ⟨cs, rs, h⟩
  rw [h.minUpdateIndex] at hadded ⊢
  generalize writerAddRecord zlib opts .ref (ref.relative min) w = result at hadded ⊢
  cases result with
  | error e w₁ =>
    obtain ⟨cs', rs', hwriting, hadvanced, hev⟩ := hadded
    have hsame := hev.objIndexTree
    exact ⟨cs', rs', hwriting, hadvanced.records.trans h.records_eq,
      hev.minUpdateIndex.trans h.minUpdateIndex, hev.objectIdLen.trans h.objectIdLen,
      hsame ▸ h.tree_sorted, hsame ▸ h.mem_tree⟩
  | ok u w₁ =>
    obtain ⟨cs', rs', hwriting, hadvanced, hev⟩ := hadded
    have hrecords : chunkRecords cs' ++ (rs' ++ [ref.relative min]) =
        (accepted ++ [ref]).map (RefRecord.relative min) := by
      rw [← append_assoc, hadvanced.records, h.records_eq, map_append]
      rfl
    have hmin := hev.minUpdateIndex.trans h.minUpdateIndex
    have hidLen := hev.objectIdLen.trans h.objectIdLen
    have hsorted := h.tree_sorted
    rw [← hev.objIndexTree] at hsorted
    obtain ⟨hrun, hmem⟩ := foldl_indexHash (UInt64.ofNat w₁.next) ref.hashes hsorted
    refine ⟨cs', rs' ++ [ref.relative min], ?_⟩
    unfold writerIndexHashes
    split
    · rename_i hskip
      refine ⟨hwriting, hrecords, hmin, hidLen, hsorted, fun hnot => ?_⟩
      rw [hskip] at hnot
      cases hnot
    · refine ⟨{ hwriting with }, hrecords, hmin, hidLen, hrun, fun hskip hash => ?_⟩
      rw [hmem, hev.objIndexTree, h.mem_tree hskip]
      simp only [mem_append, mem_singleton, or_and_right, exists_or, exists_eq_left]
      exact or_comm

/-- **Adding refs** one after the other. -/
theorem AddingRefs.addRefs (h : AddingRefs opts hdr min accepted cs rs w) (zlib : Zlib)
    (refs : List (RefRecord opts.hashId.size)) :
    ∃ cs' rs', AddingRefs opts hdr min (accepted ++ (addRefs zlib opts w refs).2) cs' rs'
      (addRefs zlib opts w refs).1 := by
  induction refs generalizing accepted cs rs w with
  | nil => exact ⟨cs, rs, by rwa [Reftable.addRefs, append_nil]⟩
  | cons ref refs ih =>
    have hstep := h.step zlib ref
    rw [Reftable.addRefs]
    generalize reftableWriterAddRef zlib opts ref w = result at hstep ⊢
    cases result with
    | error e w' =>
      obtain ⟨cs', rs', h'⟩ := hstep
      exact ih h'
    | ok u w' =>
      obtain ⟨cs', rs', h'⟩ := hstep
      obtain ⟨cs'', rs'', h''⟩ := ih h'
      rw [append_assoc] at h''
      exact ⟨cs'', rs'', h''⟩

end AddingRefs

/-- Refs are accepted in their order. -/
theorem addRefs_sublist (zlib : Zlib) (w : Writer) (refs : List (RefRecord opts.hashId.size)) :
    (addRefs zlib opts w refs).2.Sublist refs := by
  induction refs generalizing w with
  | nil => exact List.Sublist.refl _
  | cons ref refs ih =>
    rw [addRefs]
    split
    · exact (ih _).cons ref
    · exact (ih _).cons_cons ref

/-- **A new writer** has no refs. -/
theorem addingRefs_new {min max : UInt64}
    (hlimits : reftableWriterSetLimits min max (reftableWriterNew opts) = .ok () w) :
    AddingRefs opts (writerWriteHeader opts w) min [] [] [] w := by
  -- the limits could as well have been set before the first block was opened
  let w₀ : Writer :=
    { minUpdateIndex := min, maxUpdateIndex := max, out := [], pendingPadding := 0, next := 0
      lastKey := [], blockWriter := none, index := [], stats := fun _ => ⟨0, 0, 0, 0⟩
      objectIdLen := 0, objIndexTree := [] }
  have hw : w = writerReinitBlockWriter opts .ref w₀ := (EStateM.Result.ok.inj hlimits).2.symm
  have hheader : writerWriteHeader opts w₀ = writerWriteHeader opts w := by
    rw [hw]
    rfl
  have hstart : Written opts (writerWriteHeader opts w) w₀.stats .ref 0 [] w₀ :=
    Written.nil .ref rfl hheader rfl
  have hwriting := hstart.reinit
  rw [← hw] at hwriting
  have htree : w.objIndexTree = [] := by rw [hw]; rfl
  refine ⟨hwriting, rfl, by rw [hw]; rfl, by rw [hw]; rfl, ?_, ?_⟩
  · rw [htree]
    exact List.Pairwise.nil
  · intro _ hash
    rw [htree]
    simp

end Adding

end GitCore.Reftable
