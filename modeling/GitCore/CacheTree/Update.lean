import GitCore.CacheTree.Sound

/-! # The update of a cache-tree

`update_one` for a directory takes exactly the entries below it, leaves a sound node, and the node is
valid unless there are intent-to-add entries or trees are only looked for. -/

namespace GitCore.CacheTree

open List Index

variable {repo : Repository} {flags : WriteTreeFlags} {entries others remaining rest : List CacheEntry}
  {base name : Name} {ce : CacheEntry} {objects : Objects} {updated : Updated} {fuel : Nat}

/-- An entry as the modelled sessions have them: neither a sparse directory nor marked for removal. -/
structure Plain (e : CacheEntry) : Prop where
  notSparse : e.isSparseDir = false
  notRemoved : e.remove = false
  noSlash : e.name.getLast? ≠ some 47

/-- The entries of a directory and those behind it, as `update_one` gets them. -/
structure LevelOf (base : Name) (entries rest : List CacheEntry) : Prop where
  sorted : Sorted entries
  inside : ∀ e ∈ entries, inLevel base e = true
  behind : ∀ e ∈ rest.head?, inLevel base e = false
  plain : ∀ e ∈ entries ++ rest, Plain e

/-- What `update_one` does for the entries of a directory. -/
structure UpdatedFor (repo : Repository) (flags : WriteTreeFlags) (entries : List CacheEntry)
    (base : Name) (updated : Updated) : Prop where
  count : updated.count = entries.length
  skip : updated.skip = 0
  sound : Sound repo.hashTree entries base updated.tree
  valid : flags.repair = false → (∀ e ∈ entries, e.intentToAdd = false) →
    0 ≤ updated.tree.entryCount

section Level

variable {group : List CacheEntry}

/-- The entries of a directory in a directory, and those behind it. -/
theorem LevelOf.sub (h : LevelOf base (group ++ others) rest)
    (hgroup : ∀ e ∈ group, inLevel (subBase base name) e = true)
    (hother : ∀ e ∈ others, inLevel (subBase base name) e = false) :
    LevelOf (subBase base name) group (others ++ rest) where
  sorted := (pairwise_append.mp h.sorted).1
  inside := hgroup
  behind := by
    intro e he
    cases others with
    | nil =>
      have hnot := h.behind e he
      by_contra hcon
      rw [Bool.not_eq_false] at hcon
      rw [inLevel_up (prefix_subBase base name) hcon] at hnot
      cases hnot
    | cons o others =>
      grind
  plain := by
    rw [← append_assoc]
    exact h.plain

/-- The entries behind some of a directory. -/
theorem LevelOf.tail (h : LevelOf base (group ++ others) rest) : LevelOf base others rest where
  sorted := (pairwise_append.mp h.sorted).2.1
  inside := fun e he => h.inside e (mem_append_right _ he)
  behind := h.behind
  plain := by
    intro e he
    refine h.plain e ?_
    rw [append_assoc]
    exact mem_append_right _ he

theorem LevelOf.tail_cons (h : LevelOf base (ce :: entries) rest) : LevelOf base entries rest :=
  @LevelOf.tail entries rest base [ce] h

theorem LevelOf.blocks (h : LevelOf base entries rest) : Blocks base entries :=
  h.sorted.blocks (fun e he => (h.plain e (mem_append_left _ he)).noSlash) h.inside

end Level

/-! ## The loop over the subtrees -/

section Scan

variable (repo flags entries base)

/-- The subtrees during the loop are sound for the entries of the directory. -/
structure ScanInv (scan : Scan) : Prop where
  sorted : SortedDown scan.down
  names : ∀ sub ∈ scan.down, 47 ∉ sub.1
  sound : ∀ name sub, (name, some sub) ∈ scan.down →
    Sound repo.hashTree entries (subBase base name) sub
  skip : scan.skip = 0

/-- The subtree of a directory has been updated. -/
def Ready (scan : Scan) (name : Name) : Prop :=
  ∃ sub, (name, some sub) ∈ scan.down ∧
    scan.used.lookup name = some (beneath (subBase base name) entries).length ∧
    (flags.repair = false → (∀ e ∈ beneath (subBase base name) entries, e.intentToAdd = false) →
      0 ≤ sub.entryCount)

/-- The state of the loop when an updated subtree has been stored. -/
def Scan.store (scan : Scan) (pre post : Subtrees) (name : Name) (updated : Updated) : Scan where
  down := pre ++ (name, some updated.tree) :: post
  used := (name, updated.count) :: scan.used
  skip := scan.skip + updated.skip
  objects := updated.objects

variable {repo flags entries base} {scan : Scan} {pre post : Subtrees}

/-- The subtrees with the updated one. -/
theorem mem_down_store (hmem : ∀ s, s ∈ pre ++ post ↔ s ∈ scan.down ∧ s.1 ≠ name)
    {s : Name × Option CacheTree} : s ∈ (scan.store pre post name updated).down ↔
      s = (name, some updated.tree) ∨ s ∈ scan.down ∧ s.1 ≠ name := by
  rw [← hmem, Scan.store, perm_middle.mem_iff, mem_cons]

/-- Storing an updated subtree keeps the subtrees sound. -/
theorem ScanInv.store (h : ScanInv repo entries base scan) (hname : 47 ∉ name)
    (haround : Around name pre post) (hmem : ∀ s, s ∈ pre ++ post ↔ s ∈ scan.down ∧ s.1 ≠ name)
    (hupdated : UpdatedFor repo flags (beneath (subBase base name) entries) (subBase base name)
      updated) : ScanInv repo entries base (scan.store pre post name updated) where
  sorted := haround.sortedDown _
  names := by
    intro sub hsub
    rcases (mem_down_store hmem).mp hsub with rfl | ⟨hsub, -⟩
    · exact hname
    · exact h.names sub hsub
  sound := by
    intro name' sub hsub
    rcases (mem_down_store hmem).mp hsub with heq | ⟨hsub, -⟩
    · obtain ⟨rfl, htree⟩ := Prod.mk.inj heq
      obtain rfl := Option.some.inj htree
      exact hupdated.sound.congr fun base' hbase => below_below hbase
    · exact h.sound name' sub hsub
  skip := by
    change scan.skip + updated.skip = 0
    rw [h.skip, hupdated.skip]

/-- The stored subtree is ready. -/
theorem ready_store (hupdated : UpdatedFor repo flags (beneath (subBase base name) entries)
      (subBase base name) updated) :
    Ready flags entries base (scan.store pre post name updated) name := by
  refine ⟨updated.tree, mem_append_right _ mem_cons_self, ?_, hupdated.valid⟩
  rw [← hupdated.count]
  exact lookup_cons_self

/-- The other ones stay ready. -/
theorem Ready.store {name' : Name} (h : Ready flags entries base scan name') (hne : name' ≠ name)
    (hmem : ∀ s, s ∈ pre ++ post ↔ s ∈ scan.down ∧ s.1 ≠ name) :
    Ready flags entries base (scan.store pre post name updated) name' := by
  obtain ⟨sub, hsub, hused, hvalid⟩ := h
  refine ⟨sub, (mem_down_store hmem).mpr (.inr ⟨hsub, hne⟩), ?_, hvalid⟩
  change ((name, updated.count) :: scan.used).lookup name' = _
  rw [lookup_cons, beq_false_of_ne hne]
  exact hused

/-- The directories that are still to come are complete among the remaining entries. -/
def Complete (base : Name) (entries remaining : List CacheEntry) : Prop :=
  ∀ name, 47 ∉ name → (∃ e ∈ remaining, inLevel (subBase base name) e = true) →
    beneath (subBase base name) entries = beneath (subBase base name) remaining

theorem Complete.file
    (h : Complete base entries (ce :: remaining)) (hfile : subdirectory base ce = none) :
    Complete base entries remaining := by
  rintro name hname ⟨e, he, hin⟩
  rw [h name hname ⟨e, mem_cons_of_mem _ he, hin⟩, beneath, filter_cons_of_neg, beneath]
  intro hcon
  rw [subdirectory_of_inLevel hname hcon] at hfile
  cases hfile

theorem Complete.dir {group : List CacheEntry}
    (h : Complete base entries (group ++ remaining)) (hname : 47 ∉ name)
    (hgroup : ∀ e ∈ group, inLevel (subBase base name) e = true)
    (hother : ∀ e ∈ remaining, inLevel (subBase base name) e = false) :
    Complete base entries remaining := by
  rintro name' hname' ⟨e, he, hin⟩
  have hne : name ≠ name' := by
    rintro rfl
    rw [hother e he] at hin
    cases hin
  rw [h name' hname' ⟨e, mem_append_right _ he, hin⟩, beneath, filter_append,
    filter_eq_nil_iff.mpr, nil_append, beneath]
  intro e he hcon
  exact hne (inLevel_subBase_unique hname hname' (hgroup e he) hcon)

/-- A tree without valid nodes is sound. -/
theorem sound_emptyTree : Sound repo.hashTree entries base (emptyTree repo) :=
  .invalid List.Pairwise.nil (fun _ hs => (not_mem_nil hs).elim) fun _ _ hs => (not_mem_nil hs).elim

variable {update : CacheTree → List CacheEntry → Name → Objects → Except UpdateError Updated}
  {scan' : Scan}

/-- The round of the loop for a directory. -/
theorem updateSubtrees_dir_inv
    {sub : Option CacheTree} (hin : inLevel base ce = true) (hsub : subdirectory base ce = some name)
    (hcreate : createSubtree scan.down name = (pre.length, pre ++ (name, sub) :: post))
    (h : updateSubtrees repo update base (fuel + 1) (ce :: others) scan = .ok scan') :
    ∃ updated, update (sub.getD (emptyTree repo)) (ce :: others) (subBase base name) scan.objects =
        .ok updated ∧
      updateSubtrees repo update base fuel ((ce :: others).drop updated.count)
        (scan.store pre post name updated) = .ok scan' := by
  rw [updateSubtrees, hin, if_pos rfl, hsub] at h
  dsimp only at h
  rw [hcreate] at h
  rw [getElem?_append_right le_rfl, Nat.sub_self, getElem?_cons_zero, Option.bind_some] at h
  cases hrun : update (sub.getD (emptyTree repo)) (ce :: others) (subBase base name)
      scan.objects with
  | error e =>
    rw [hrun] at h
    cases h
  | ok updated =>
    rw [hrun] at h
    dsimp only at h
    split at h
    · cases h
    · rw [set_append_cons] at h
      exact ⟨updated, rfl, h⟩

/-- **What the loop over the subtrees has done** for some entries: the directories that they are in
are ready, and so are those that were. -/
structure Advanced (repo : Repository) (flags : WriteTreeFlags) (entries : List CacheEntry)
    (base : Name) (remaining : List CacheEntry) (scan scan' : Scan) : Prop where
  inv : ScanInv repo entries base scan'
  kept : ∀ name, 47 ∉ name → Ready flags entries base scan name →
    (∀ e ∈ remaining, inLevel (subBase base name) e = false) → Ready flags entries base scan' name
  ready : ∀ name, 47 ∉ name → (∃ e ∈ remaining, inLevel (subBase base name) e = true) →
    Ready flags entries base scan' name

/-- A file is in no directory of the level. -/
theorem Advanced.file (h : Advanced repo flags entries base others scan scan')
    (hfile : subdirectory base ce = none) :
    Advanced repo flags entries base (ce :: others) scan scan' := by
  refine ⟨h.inv, fun name hname hr hnone => h.kept name hname hr (forall_mem_cons.mp hnone).2, ?_⟩
  rintro name hname ⟨e, he, hbelow⟩
  rcases mem_cons.mp he with rfl | he
  · rw [subdirectory_of_inLevel hname hbelow] at hfile
    cases hfile
  · exact h.ready name hname ⟨e, he, hbelow⟩

section Dir

variable {group : List CacheEntry} (hname : 47 ∉ name)
  (hgroup : ∀ e ∈ ce :: group, inLevel (subBase base name) e = true)
  (hother : ∀ e ∈ others, inLevel (subBase base name) e = false)
include hname hgroup hother

/-- The block of a directory makes it ready. -/
theorem Advanced.dir (hmem : ∀ s, s ∈ pre ++ post ↔ s ∈ scan.down ∧ s.1 ≠ name)
    (hupdated : UpdatedFor repo flags (beneath (subBase base name) entries) (subBase base name)
      updated)
    (h : Advanced repo flags entries base others (scan.store pre post name updated) scan') :
    Advanced repo flags entries base (ce :: group ++ others) scan scan' := by
  refine ⟨h.inv, fun name' hname' hr hnone => ?_, ?_⟩
  · -- a directory that was ready is another one
    have hne : name' ≠ name := by
      rintro rfl
      exact Bool.false_ne_true ((hnone ce (mem_append_left _ mem_cons_self)).symm.trans
        (hgroup ce mem_cons_self))
    exact h.kept name' hname' (hr.store hne hmem) fun e he => hnone e (mem_append_right _ he)
  · rintro name' hname' ⟨e, he, hin⟩
    by_cases hne : name' = name
    · subst hne
      exact h.kept name' hname' (ready_store hupdated) hother
    · rcases mem_append.mp he with he | he
      · exact absurd (inLevel_subBase_unique hname' hname hin (hgroup e he)) hne
      · exact h.ready name' hname' ⟨e, he, hin⟩

/-- What is below a directory that is still to come is its block. -/
theorem Complete.below_eq (h : Complete base entries (ce :: group ++ others)) :
    beneath (subBase base name) entries = ce :: group := by
  rw [h name hname ⟨ce, mem_append_left _ mem_cons_self, hgroup ce mem_cons_self⟩,
    below_block hgroup hother]

end Dir

/-- The subtree that the loop updates is sound for the block of its directory. -/
theorem ScanInv.sound_getD (h : ScanInv repo entries base scan) {sub : Option CacheTree}
    (hfound : (name, sub) ∈ scan.down ∨ sub = none) :
    Sound repo.hashTree (beneath (subBase base name) entries) (subBase base name)
      (sub.getD (emptyTree repo)) := by
  cases sub with
  | none => exact sound_emptyTree
  | some sub =>
    refine (h.sound name sub (hfound.resolve_right (by simp))).congr fun base' hbase => ?_
    exact (below_below hbase).symm

/-- **The loop over the subtrees**: each directory of the level is updated once. By induction on the
blocks of the entries that are left. -/
theorem updateSubtrees_spec (hupdate : ∀ {name sub group rest objects updated}, 47 ∉ name →
      LevelOf (subBase base name) group rest → Sound repo.hashTree group (subBase base name) sub →
      update sub (group ++ rest) (subBase base name) objects = .ok updated →
      UpdatedFor repo flags group (subBase base name) updated)
    (hblocks : Blocks base remaining)
    (hlevel : LevelOf base remaining rest) (hcomplete : Complete base entries remaining)
    (hinv : ScanInv repo entries base scan)
    (h : updateSubtrees repo update base fuel (remaining ++ rest) scan = .ok scan') :
    Advanced repo flags entries base remaining scan scan' := by
  induction hblocks generalizing scan fuel with
  | nil =>
    obtain rfl : scan = scan' := by
      cases rest with
      | nil =>
        rw [nil_append, updateSubtrees] at h
        exact Except.ok.inj h
      | cons e rest =>
        cases fuel with
        | zero => cases h
        | succ fuel =>
          rw [nil_append, updateSubtrees, hlevel.behind e rfl, if_neg (by decide)] at h
          exact Except.ok.inj h
    exact ⟨hinv, fun name _ hready _ => hready, fun name _ hexists =>
      hexists.elim fun e he => (not_mem_nil he.1).elim⟩
  | @file ce others hin hfile _ ih =>
    cases fuel with
    | zero => cases h
    | succ fuel =>
      rw [cons_append, updateSubtrees, hin, if_pos rfl, hfile] at h
      exact (ih (hlevel.tail_cons) (hcomplete.file hfile) hinv h).file hfile
  | @dir name ce group others hname hgroup hother _ ih =>
    cases fuel with
    | zero => cases h
    | succ fuel =>
      have hce := hgroup ce mem_cons_self
      have hbelow := hcomplete.below_eq hname hgroup hother
      obtain ⟨pre, post, sub, haround, hcreate, hmem, hfound⟩ := hinv.sorted.createSubtree name
      rw [append_assoc, cons_append] at h
      obtain ⟨updated, hrun, h⟩ := updateSubtrees_dir_inv
        (inLevel_up (prefix_subBase base name) hce) (subdirectory_of_inLevel hname hce) hcreate h
      have hupdated := hupdate hname (hlevel.sub hgroup hother) (hbelow ▸ hinv.sound_getD hfound) hrun
      rw [hupdated.count, ← cons_append, drop_left] at h
      rw [← hbelow] at hupdated
      exact .dir hname hgroup hother hmem hupdated (ih hlevel.tail
        (hcomplete.dir hname hgroup hother) (hinv.store hname haround hmem hupdated) h)

end Scan

/-! ## The loop over the items -/

section Items

variable {down : Subtrees} {used : List (Name × Nat)}

/-- What the loop over the items needs of the subtree of a directory. -/
structure Prepared (repo : Repository) (flags : WriteTreeFlags) (down : Subtrees)
    (used : List (Name × Nat)) (base name : Name) (entries : List CacheEntry) (sub : CacheTree) :
    Prop where
  found : findSubtree down name = some (some sub)
  count : used.lookup name = some entries.length
  oid : 0 ≤ sub.entryCount →
    sub.oid = repo.hashTree (treeBytes repo.hashTree (subBase base name) entries)
  valid : flags.repair = false → (∀ e ∈ entries, e.intentToAdd = false) → 0 ≤ sub.entryCount

/-- What the loop over the items has done for some entries. -/
structure Written (repo : Repository) (flags : WriteTreeFlags) (base : Name)
    (entries : List CacheEntry) (state state' : TreeBuffer) : Prop where
  i : state'.i = state.i + entries.length
  skip : state'.skip = state.skip
  buffer : state'.toInvalidate = false → state.toInvalidate = false ∧
    state'.buffer = state.buffer ++ treeBytes repo.hashTree base entries
  valid : flags.repair = false → (∀ e ∈ entries, e.intentToAdd = false) →
    state.toInvalidate = false → state'.toInvalidate = false

variable {state state' : TreeBuffer}

section

variable (hin : inLevel base ce = true) (hremove : ce.remove = false)
  (h : writeItems repo flags objects down used base (fuel + 1) (ce :: others) state = .ok state')
include hin hremove h

/-- The round of the loop for a file. -/
theorem writeItems_file_inv (hfile : subdirectory base ce = none) :
    ∃ next, writeItems repo flags objects down used base fuel others next = .ok state' ∧
      next.i = state.i + 1 ∧ next.skip = state.skip ∧
      (ce.intentToAdd = true ∧ next.toInvalidate = true ∨
        ce.intentToAdd = false ∧ next.toInvalidate = state.toInvalidate ∧ next.buffer =
          state.buffer ++ treeItem ce.mode.toNat (ce.name.drop base.length) ce.oid) := by
  rw [writeItems, hin, if_pos rfl, hfile] at h
  dsimp only at h
  grind

/-- The round of the loop for a directory. -/
theorem writeItems_dir_inv {sub : CacheTree} {count : Nat} (hsub : subdirectory base ce = some name)
    (hfound : findSubtree down name = some (some sub)) (hcount : used.lookup name = some count) :
    ∃ next, writeItems repo flags objects down used base fuel ((ce :: others).drop count) next =
        .ok state' ∧ next.i = state.i + count ∧ next.skip = state.skip ∧
      (sub.entryCount < 0 ∧ next.toInvalidate = true ∨
        0 ≤ sub.entryCount ∧ next.toInvalidate = state.toInvalidate ∧
          next.buffer = state.buffer ++ treeItem sIfdir name sub.oid) := by
  rw [writeItems, hin, if_pos rfl, hsub] at h
  dsimp only at h
  rw [hfound, hcount] at h
  dsimp only at h
  split at h
  · cases h
  rw [hremove, if_neg (by decide)] at h
  by_cases hvalid : sub.entryCount < 0
  · grind
  grind

end

/-- **The loop over the items**: it takes the entries of the directory, and unless the node has to be
invalidated the buffer is the tree of them. -/
theorem writeItems_spec (hblocks : Blocks base remaining)
    (hlevel : LevelOf base remaining rest)
    (hcomplete : Complete base entries remaining)
    (hprepared : ∀ name, 47 ∉ name → (∃ e ∈ remaining, inLevel (subBase base name) e = true) →
      ∃ sub, Prepared repo flags down used base name (beneath (subBase base name) entries) sub)
    (h : writeItems repo flags objects down used base fuel (remaining ++ rest) state = .ok state') :
    Written repo flags base remaining state state' := by
  induction hblocks generalizing state fuel with
  | nil =>
    obtain rfl : state = state' := by
      cases rest with
      | nil =>
        rw [nil_append, writeItems] at h
        exact Except.ok.inj h
      | cons e rest =>
        cases fuel with
        | zero => cases h
        | succ fuel =>
          rw [nil_append, writeItems, hlevel.behind e rfl, if_neg (by decide)] at h
          exact Except.ok.inj h
    refine ⟨rfl, rfl, fun hvalid => ⟨hvalid, ?_⟩, fun _ _ hvalid => hvalid⟩
    rw [treeBytes, append_nil]
  | @file ce others hin hfile _ ih =>
    cases fuel with
    | zero => cases h
    | succ fuel =>
      have hplain := hlevel.plain ce (by simp)
      obtain ⟨next, hrun, hi, hskip, hnext⟩ := writeItems_file_inv hin hplain.notRemoved h hfile
      have hwritten := ih hlevel.tail_cons (hcomplete.file hfile)
        (fun name hname hexists => hprepared name hname
          (hexists.imp fun e he => ⟨mem_cons_of_mem _ he.1, he.2⟩)) hrun
      refine ⟨?_, hwritten.skip.trans hskip, fun hvalid => ?_, fun hrepair hita hvalid => ?_⟩
      · rw [hwritten.i, hi, length_cons]
        omega
      · obtain ⟨hvalid', hbuffer⟩ := hwritten.buffer hvalid
        rcases hnext with ⟨-, htrue⟩ | ⟨-, hsame, hitem⟩
        · rw [htrue] at hvalid'
          cases hvalid'
        · refine ⟨hsame ▸ hvalid', ?_⟩
          rw [hbuffer, hitem, treeBytes, hfile, append_assoc]
      · obtain ⟨hce, hothers⟩ := forall_mem_cons.mp hita
        refine hwritten.valid hrepair hothers ?_
        grind
  | @dir name ce group others hname hgroup hother _ ih =>
    cases fuel with
    | zero => cases h
    | succ fuel =>
      have hce := hgroup ce mem_cons_self
      have hplain := hlevel.plain ce (by simp)
      have hexists : ∃ e ∈ ce :: group ++ others, inLevel (subBase base name) e = true :=
        ⟨ce, mem_append_left _ mem_cons_self, hce⟩
      have hbelow : beneath (subBase base name) entries = ce :: group := by
        rw [hcomplete name hname hexists, below_block hgroup hother]
      obtain ⟨sub, hsub⟩ := hprepared name hname hexists
      rw [hbelow] at hsub
      rw [append_assoc, cons_append] at h
      obtain ⟨next, hrun, hi, hskip, hnext⟩ := writeItems_dir_inv
        (inLevel_up (prefix_subBase base name) hce) hplain.notRemoved h
        (subdirectory_of_inLevel hname hce) hsub.found hsub.count
      rw [← cons_append, drop_left] at hrun
      have hwritten := ih hlevel.tail (hcomplete.dir hname hgroup hother)
        (fun name hname hexists => hprepared name hname
          (hexists.imp fun e he => ⟨mem_append_right _ he.1, he.2⟩)) hrun
      refine ⟨?_, hwritten.skip.trans hskip, fun hvalid => ?_, fun hrepair hita hvalid => ?_⟩
      · rw [hwritten.i, hi, length_append]
        omega
      · obtain ⟨hvalid', hbuffer⟩ := hwritten.buffer hvalid
        rcases hnext with ⟨-, htrue⟩ | ⟨hcount, hsame, hitem⟩
        · rw [htrue] at hvalid'
          cases hvalid'
        · refine ⟨hsame ▸ hvalid', ?_⟩
          rw [hbuffer, hitem, treeBytes_dir hname hgroup hother, hsub.oid hcount, append_assoc]
      · refine hwritten.valid hrepair (fun e he => hita e (mem_append_right _ he)) ?_
        have hcount := hsub.valid hrepair fun e he => hita e (mem_append_left _ he)
        grind

end Items

/-! ## The node -/

section Node

variable {it : CacheTree}

/-- The node at the end: an invalid one, or one with the object id of the buffer. -/
theorem finishTree_inv {down : Subtrees} {state : TreeBuffer}
    (h : finishTree repo flags it down objects state = .ok updated) :
    updated.count = state.i ∧ updated.skip = state.skip ∧ updated.tree.down = down ∧
      (0 ≤ updated.tree.entryCount → state.toInvalidate = false ∧
        updated.tree.entryCount = (state.i : Int) - state.skip ∧
        updated.tree.oid = repo.hashTree state.buffer) ∧
      (flags.repair = false → state.toInvalidate = false →
        updated.tree.entryCount = (state.i : Int) - state.skip) := by
  -- a node that has to be invalidated has no count
  have hcount : ∀ {toInvalidate : Bool},
      0 ≤ (if toInvalidate then -1 else (state.i : Int) - state.skip) →
      toInvalidate = false ∧
        (if toInvalidate then -1 else (state.i : Int) - state.skip) = (state.i : Int) - state.skip := by
    simp
  rw [finishTree] at h
  split at h
  · rename_i hrepair
    have hno : ∀ {P : Prop}, flags.repair = false → P := fun hcon =>
      absurd hrepair (by rw [hcon]; decide)
    split at h
    · obtain rfl := Except.ok.inj h
      exact ⟨rfl, rfl, rfl, fun hvalid => ⟨(hcount hvalid).1, (hcount hvalid).2, rfl⟩, hno⟩
    · obtain rfl := Except.ok.inj h
      exact ⟨rfl, rfl, rfl, fun hvalid => absurd (@hcount true hvalid).1 (by decide), hno⟩
  · split at h
    · obtain rfl := Except.ok.inj h
      refine ⟨rfl, rfl, rfl, fun hvalid => ⟨(hcount hvalid).1, (hcount hvalid).2, rfl⟩, ?_⟩
      exact fun _ hvalid => by rw [hvalid]; rfl
    · split at h
      · cases h
      obtain rfl := Except.ok.inj h
      refine ⟨rfl, rfl, rfl, fun hvalid => ⟨(hcount hvalid).1, (hcount hvalid).2, rfl⟩, ?_⟩
      exact fun _ hvalid => by rw [hvalid]; rfl

/-- The subtrees that are kept are those of the directories of the level. -/
theorem prepared_discard {scan : Scan} (hinv : ScanInv repo entries base scan)
    (h : Ready flags entries base scan name) : ∃ sub, Prepared repo flags (discardUnusedSubtrees scan)
      scan.used base name (beneath (subBase base name) entries) sub := by
  obtain ⟨sub, hsub, hused, hvalid⟩ := h
  have hsorted : SortedDown (discardUnusedSubtrees scan) := hinv.sorted.sublist filter_sublist
  refine ⟨sub, hsorted.findSubtree_eq ?_, hused, fun hcount => ?_, hvalid⟩
  · refine mem_filter.mpr ⟨hsub, ?_⟩
    rw [hused]
    rfl
  · exact ((hinv.sound name sub hsub _ _ .here).valid hcount).2

/-- **`update_one`** for the entries of a directory. By induction on the fuel: the subtrees are
updated with longer directories. -/
theorem updateOne_spec (hlevel : LevelOf base entries rest)
    (hsound : Sound repo.hashTree entries base it)
    (h : updateOne repo flags fuel it (entries ++ rest) base objects = .ok updated) :
    UpdatedFor repo flags entries base updated := by
  induction fuel generalizing it entries rest base objects updated with
  | zero => cases h
  | succ fuel ih =>
    obtain ⟨⟨hsorted, hnames, hvalid⟩, hdown⟩ := sound_iff.mp hsound
    have hbelow : beneath base entries = entries := filter_eq_self.mpr hlevel.inside
    rw [updateOne] at h
    split at h
    · cases h
    split at h
    · -- there are no sparse directories
      rename_i hsparse
      cases hhead : (entries ++ rest).head? with
      | none =>
        rw [hhead] at hsparse
        cases hsparse
      | some e =>
        rw [hhead, Option.any_some, decide_eq_true_eq,
          (hlevel.plain e (mem_of_mem_head? hhead)).notSparse] at hsparse
        exact absurd hsparse.1 (by decide)
    · split at h
      · rename_i hknown
        obtain rfl := Except.ok.inj h
        obtain ⟨hcount, -⟩ := hvalid hknown.1
        rw [hbelow] at hcount
        refine ⟨?_, rfl, hsound, fun _ _ => hknown.1⟩
        rw [hcount, Int.toNat_natCast]
      · split at h
        · cases h
        rename_i scan hscan
        dsimp only at h
        split at h
        · cases h
        rename_i state hstate
        obtain ⟨hinv, -, hready⟩ := updateSubtrees_spec
          (fun _ hlevel hsound hrun => ih hlevel hsound hrun) hlevel.blocks hlevel
          (fun _ _ _ => rfl) ⟨hsorted, hnames, hdown, rfl⟩ hscan
        have hwritten := writeItems_spec hlevel.blocks hlevel (fun _ _ _ => rfl)
          (fun name hname hexists => prepared_discard hinv (hready name hname hexists)) hstate
        obtain ⟨hcount, hskip, hdown', hnode, hnode'⟩ := finishTree_inv h
        have hi : state.i = entries.length := by rw [hwritten.i, Nat.zero_add]
        have hskip' : state.skip = 0 := hwritten.skip.trans hinv.skip
        refine ⟨hcount.trans hi, hskip.trans hskip', sound_iff.mpr ⟨⟨?_, ?_, ?_⟩, ?_⟩, ?_⟩
        · rw [hdown']
          exact hinv.sorted.sublist filter_sublist
        · rw [hdown']
          exact fun sub hsub => hinv.names sub (mem_of_mem_filter hsub)
        · intro hcount'
          obtain ⟨hinvalid, hcount'', hoid⟩ := hnode hcount'
          obtain ⟨-, hbuffer⟩ := hwritten.buffer hinvalid
          grind
        · rw [hdown']
          exact fun name sub hsub => hinv.sound name sub (mem_of_mem_filter hsub)
        · intro hrepair hita
          rw [hnode' hrepair (hwritten.valid hrepair hita rfl), hskip']
          omega

/-- After an update that is not a dry run the object of the node is there, or the node is invalid. -/
theorem updateOne_present (hnames : ∀ e ∈ entries, e.name ≠ base)
    (hdry : flags.dryRun = false)
    (h : updateOne repo flags fuel it entries base objects = .ok updated) :
    updated.objects updated.tree.oid = true ∨ updated.tree.entryCount < 0 := by
  cases fuel with
  | zero => cases h
  | succ fuel =>
    rw [updateOne, hdry] at h
    split at h
    · cases h
    split at h
    · rename_i hsparse
      cases hhead : entries.head? with
      | none =>
        rw [hhead] at hsparse
        cases hsparse
      | some e =>
        rw [hhead, Option.any_some, decide_eq_true_eq] at hsparse
        exact absurd hsparse.2 (hnames e (mem_of_mem_head? hhead))
    · split at h
      · rename_i hknown
        obtain rfl := Except.ok.inj h
        exact .inl hknown.2
      split at h
      · cases h
      dsimp only at h
      split at h
      · cases h
      rw [finishTree, hdry] at h
      split at h
      · split at h
        · rename_i hfound
          obtain rfl := Except.ok.inj h
          exact .inl hfound
        · obtain rfl := Except.ok.inj h
          exact .inr (show (-1 : Int) < 0 by decide)
      · rw [if_neg (by decide)] at h
        split at h
        · cases h
        · obtain rfl := Except.ok.inj h
          exact .inl (Bool.or_eq_true_iff.mpr (.inl (decide_eq_true rfl)))

end Node

/-! ## The fuel -/

/-- The loop over the subtrees has enough fuel, and the counts of the updated subtrees are not
zero. -/
theorem updateSubtrees_fuel
    {update : CacheTree → List CacheEntry → Name → Objects → Except UpdateError Updated}
    (hupdate : ∀ ce others, (ce :: others) <:+ entries → ∀ name, subdirectory base ce = some name →
      inLevel base ce = true → ∀ sub objects, update sub (ce :: others) (subBase base name) objects ≠ .error .outOfFuel)
    (hsuffix : remaining <:+ entries)
    (hfuel : remaining.length ≤ fuel) {scan : Scan} {result : Except UpdateError Scan}
    (hused : ∀ name count, scan.used.lookup name = some count → count ≠ 0)
    (h : updateSubtrees repo update base fuel remaining scan = result) :
    result ≠ .error .outOfFuel ∧ ∀ scan', result = .ok scan' →
      ∀ name count, scan'.used.lookup name = some count → count ≠ 0 := by
  subst h
  fun_induction updateSubtrees repo update base fuel remaining scan with
  | case1 | case7 => exact ⟨nofun, fun _ hok => Except.ok.inj hok ▸ hused⟩
  | case2 => cases hfuel
  | case3 fuel ce others scan hin hsub ih =>
    exact ih ((suffix_cons ce others).trans hsuffix) (Nat.le_of_succ_le_succ hfuel) hused
  | case4 fuel ce others scan hin name hsub created sub e he =>
    exact ⟨fun h => hupdate ce others hsuffix name hsub hin _ _ (Except.error.inj h ▸ he), nofun⟩
  | case5 => exact ⟨nofun, nofun⟩
  | case6 fuel ce others scan hin name hsub created sub updated he hcount ih =>
    refine ih ((drop_suffix _ _).trans hsuffix) ?_ fun name' count hlookup => ?_
    · rw [length_drop]
      rw [length_cons] at hfuel ⊢
      omega
    · rw [lookup_cons] at hlookup
      split at hlookup
      · exact Option.some.inj hlookup ▸ hcount
      · exact hused name' count hlookup

theorem writeItems_ne_outOfFuel {down : Subtrees} {used : List (Name × Nat)}
    (hused : ∀ name count, used.lookup name = some count → count ≠ 0)
    (hfuel : remaining.length ≤ fuel) (state : TreeBuffer) :
    writeItems repo flags objects down used base fuel remaining state ≠ .error .outOfFuel := by
  induction fuel generalizing remaining state with
  | zero =>
    obtain rfl := length_eq_zero_iff.mp (Nat.le_zero.mp hfuel)
    exact nofun
  | succ fuel ih =>
    cases remaining with
    | nil => exact nofun
    | cons ce others =>
      rw [length_cons] at hfuel
      intro h
      rw [writeItems] at h
      split at h
      · split at h
        · split at h
          next sub count _ hcount =>
            have hlen : ((ce :: others).drop count).length ≤ fuel := by
              have hne := hused _ _ hcount
              rw [length_drop, length_cons]
              omega
            dsimp only at h
            split_ifs at h <;> first | exact ih hlen _ h | cases h
          · cases h
        · dsimp only at h
          split_ifs at h <;> first | exact ih (by omega) _ h | cases h
      · cases h

/-- **The fuel is enough** if it is more than what is left of the longest name. -/
theorem updateOne_ne_outOfFuel {it : CacheTree}
    (hpos : 0 < fuel) (hfuel : ∀ e ∈ entries, e.name.length < base.length + fuel) :
    updateOne repo flags fuel it entries base objects ≠ .error .outOfFuel := by
  induction fuel generalizing it entries base objects with
  | zero => exact absurd hpos (lt_irrefl _)
  | succ fuel ih =>
    -- the name of an entry goes on behind the longer directory
    have hupdate : ∀ ce others, (ce :: others) <:+ entries → ∀ name,
        subdirectory base ce = some name → inLevel base ce = true → ∀ sub objects,
        updateOne repo flags fuel sub (ce :: others) (subBase base name) objects ≠
          .error .outOfFuel := by
      intro ce others hsuffix name hsub hin sub objects
      have hlen := (subBase_begins hin hsub).2.length_le
      have hce := hfuel ce (hsuffix.subset mem_cons_self)
      rw [length_subBase] at hlen
      refine ih (by omega) fun e he => ?_
      have hname := hfuel e (hsuffix.subset he)
      rw [length_subBase]
      omega
    intro h
    rw [updateOne] at h
    split at h
    · cases h
    split at h
    · cases h
    split at h
    · cases h
    split at h
    · rename_i e he
      obtain rfl := Except.error.inj h
      exact (updateSubtrees_fuel hupdate suffix_rfl le_rfl (by simp) he).1 rfl
    rename_i scan hscan
    dsimp only at h
    split at h
    · rename_i e he
      obtain rfl := Except.error.inj h
      refine writeItems_ne_outOfFuel ?_ le_rfl _ he
      exact (updateSubtrees_fuel hupdate suffix_rfl le_rfl (by simp) hscan).2 scan rfl
    · rw [finishTree] at h
      split_ifs at h
      cases h

end GitCore.CacheTree
