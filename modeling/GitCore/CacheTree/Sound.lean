import GitCore.CacheTree.Level
import GitCore.Lib.Slice

/-! # Sound cache-trees

A cache-tree is sound for an index if each valid node has the number of entries below its directory
and the object id of the tree that they make. Changing an entry together with `do_invalidate_path`
keeps a tree sound. -/

namespace GitCore.CacheTree

open List Index

/-! ## Subtrees -/

section Subtrees

variable {one two three name : Name}

theorem subtreeNameCmp_eq_lt :
    subtreeNameCmp one two = .lt ↔ one.length < two.length ∨ one.length = two.length ∧ one < two := by
  rw [subtreeNameCmp, Ordering.then_eq_lt, cmp_eq_lt_iff, cmp_eq_eq_iff, nameCompare_eq_lt]

theorem subtreeNameCmp_eq_gt : subtreeNameCmp one two = .gt ↔ subtreeNameCmp two one = .lt := by
  rw [subtreeNameCmp_eq_lt, subtreeNameCmp, Ordering.then_eq_gt, cmp_eq_gt_iff, cmp_eq_eq_iff,
    nameCompare_eq_gt, eq_comm]

theorem subtreeNameCmp_eq_eq : subtreeNameCmp one two = .eq ↔ one = two := by
  rw [subtreeNameCmp, Ordering.then_eq_eq, cmp_eq_eq_iff, nameCompare_eq_eq]
  exact ⟨fun h => h.2, fun h => ⟨congrArg _ h, h⟩⟩

theorem subtreeNameCmp_trans (h : subtreeNameCmp one two = .lt) (h' : subtreeNameCmp two three = .lt) :
    subtreeNameCmp one three = .lt := by
  rw [subtreeNameCmp_eq_lt] at h h' ⊢
  grind

/-- The subtrees are in their order, each name once. -/
def SortedDown (down : Subtrees) : Prop :=
  down.Pairwise fun a b => subtreeNameCmp a.1 b.1 = .lt

/-- The subtrees before and behind a name. -/
structure Around (name : Name) (pre post : Subtrees) : Prop where
  sorted : SortedDown (pre ++ post)
  before : ∀ sub ∈ pre, subtreeNameCmp sub.1 name = .lt
  behind : ∀ sub ∈ post, subtreeNameCmp name sub.1 = .lt

variable {down pre post : Subtrees}

/-- Neither before nor behind a name is another subtree of that name. -/
theorem Around.ne (h : Around name pre post) {sub : Name × Option CacheTree}
    (hsub : sub ∈ pre ++ post) : sub.1 ≠ name := by
  rintro rfl
  have hirrefl : subtreeNameCmp sub.1 sub.1 ≠ .lt := by
    rw [subtreeNameCmp_eq_eq.mpr rfl]
    decide
  rcases mem_append.mp hsub with hsub | hsub
  · exact hirrefl (h.before sub hsub)
  · exact hirrefl (h.behind sub hsub)

/-- A subtree of that name fits in between. -/
theorem Around.sortedDown (h : Around name pre post) (tree : Option CacheTree) :
    SortedDown (pre ++ (name, tree) :: post) := by
  obtain ⟨hpre, hpost, hlt⟩ := pairwise_append.mp h.sorted
  refine pairwise_append.mpr ⟨hpre, pairwise_cons.mpr ⟨h.behind, hpost⟩, ?_⟩
  exact fun a ha => forall_mem_cons.mpr ⟨h.before a ha, hlt a ha⟩

/-- **The search for a subtree** finds it, or the place for it. -/
theorem SortedDown.subtreePos (h : SortedDown down) (name : Name) : ∃ pre post,
    Around name pre post ∧
      ((∃ sub, down = pre ++ (name, sub) :: post ∧
          cacheTreeSubtreePos down name = .inl pre.length) ∨
        down = pre ++ post ∧ cacheTreeSubtreePos down name = .inr pre.length) := by
  have hsearch : down.Pairwise fun a b =>
      subtreeNameCmp name a.1 ≠ .gt → subtreeNameCmp name b.1 = .lt := by
    refine h.imp fun {a b} hab hne => ?_
    cases hcmp : subtreeNameCmp name a.1 with
    | lt => exact subtreeNameCmp_trans hcmp hab
    | eq =>
      rw [subtreeNameCmp_eq_eq.mp hcmp]
      exact hab
    | gt => exact absurd hcmp hne
  rcases binarySearch_spec hsearch with ⟨pos, s, hpos, hs, heq⟩ | ⟨pos, hle, hpos, hlow, hhigh⟩
  · obtain rfl := subtreeNameCmp_eq_eq.mp heq
    obtain ⟨hlt, hget⟩ := List.getElem?_eq_some_iff.mp hs
    have hsplit : down = down.take pos ++ (s.1, s.2) :: down.drop (pos + 1) := by
      rw [show (s.1, s.2) = down[pos] from hget.symm, ← drop_eq_getElem_cons hlt, take_append_drop]
    have hsorted := h
    rw [SortedDown, hsplit, pairwise_append, pairwise_cons] at hsorted
    obtain ⟨hpre, ⟨hbehind, hpost⟩, hbefore⟩ := hsorted
    refine ⟨down.take pos, down.drop (pos + 1), ⟨?_, ?_, hbehind⟩, .inl ⟨s.2, hsplit, ?_⟩⟩
    · exact pairwise_append.mpr
        ⟨hpre, hpost, fun a ha b hb => hbefore a ha b (mem_cons_of_mem _ hb)⟩
    · exact fun a ha => hbefore a ha _ mem_cons_self
    · rw [length_take, Nat.min_eq_left hlt.le]
      exact hpos
  · refine ⟨down.take pos, down.drop pos, ⟨?_, ?_, hhigh⟩, .inr ⟨?_, ?_⟩⟩
    · rwa [take_append_drop]
    · exact fun a ha => subtreeNameCmp_eq_gt.mp (hlow a ha)
    · exact (take_append_drop _ _).symm
    · rw [length_take, Nat.min_eq_left hle]
      exact hpos

/-- Finding a subtree. -/
theorem SortedDown.findSubtree_eq (h : SortedDown down) {tree : Option CacheTree}
    (hmem : (name, tree) ∈ down) : findSubtree down name = some tree := by
  obtain ⟨pre, post, haround, hpos⟩ := h.subtreePos name
  rcases hpos with ⟨sub, rfl, hpos⟩ | ⟨rfl, -⟩
  · rw [findSubtree, hpos]
    rcases mem_cons.mp (perm_middle.mem_iff.mp hmem) with heq | hmem
    · grind
    · exact absurd rfl (haround.ne hmem)
  · exact absurd rfl (haround.ne hmem)

/-- Creating a subtree: the other ones are around it. -/
theorem SortedDown.createSubtree (h : SortedDown down) (name : Name) : ∃ pre post sub,
    Around name pre post ∧ createSubtree down name = (pre.length, pre ++ (name, sub) :: post) ∧
      (∀ s, s ∈ pre ++ post ↔ s ∈ down ∧ s.1 ≠ name) ∧ ((name, sub) ∈ down ∨ sub = none) := by
  obtain ⟨pre, post, haround, hpos⟩ := h.subtreePos name
  rcases hpos with ⟨sub, rfl, hpos⟩ | ⟨rfl, hpos⟩
  · refine ⟨pre, post, sub, haround, ?_, fun s => ?_, .inl (by simp)⟩
    · rw [CacheTree.createSubtree, hpos]
    rw [perm_middle.mem_iff, mem_cons]
    constructor
    · exact fun hs => ⟨.inr hs, haround.ne hs⟩
    grind
  · refine ⟨pre, post, none, haround, ?_, fun s => ⟨fun hs => ⟨hs, haround.ne hs⟩, And.left⟩, .inr rfl⟩
    rw [CacheTree.createSubtree, hpos]
    dsimp only
    rw [take_left, drop_left]

end Subtrees

/-! ## Soundness -/

/-- The node for the directory `base'` in a tree whose root is for `base`. -/
inductive NodeAt : Name → CacheTree → Name → CacheTree → Prop
  | here {base : Name} {it : CacheTree} : NodeAt base it base it
  | down {base base' name : Name} {it sub node : CacheTree} (hsub : (name, some sub) ∈ it.down)
    (hnode : NodeAt (subBase base name) sub base' node) : NodeAt base it base' node

/-- **A sound node**: if it is valid, it has the number of entries below the directory and the object
id of their tree. -/
structure NodeSound (hashTree : List UInt8 → Oid) (entries : List CacheEntry) (base : Name)
    (node : CacheTree) : Prop where
  sorted : SortedDown node.down
  names : ∀ sub ∈ node.down, 47 ∉ sub.1
  valid : 0 ≤ node.entryCount → node.entryCount = (beneath base entries).length ∧
    node.oid = hashTree (treeBytes hashTree base (beneath base entries))

/-- Every node of the tree is sound. -/
def Sound (hashTree : List UInt8 → Oid) (entries : List CacheEntry) (base : Name) (it : CacheTree) :
    Prop :=
  ∀ base' node, NodeAt base it base' node → NodeSound hashTree entries base' node

section Sound

variable {hashTree : List UInt8 → Oid} {entries entries' : List CacheEntry}
  {base base' name path : Name} {it node : CacheTree}

theorem NodeAt.base_begins (h : NodeAt base it base' node) : base <+: base' := by
  induction h with
  | here => exact prefix_rfl
  | down _ _ ih => exact (prefix_subBase _ _).trans ih

/-- A tree is sound if its root and its subtrees are. -/
theorem sound_iff : Sound hashTree entries base it ↔ NodeSound hashTree entries base it ∧
    ∀ name sub, (name, some sub) ∈ it.down → Sound hashTree entries (subBase base name) sub := by
  constructor
  · intro h
    exact ⟨h base it .here, fun name sub hsub base' node hnode => h base' node (.down hsub hnode)⟩
  rintro ⟨hroot, hdown⟩ base' node hnode
  cases hnode with
  | here => exact hroot
  | down hsub hnode => exact hdown _ _ hsub _ _ hnode

/-- A tree is sound for other entries if the same ones are below each of its directories. -/
theorem Sound.congr (h : Sound hashTree entries base it)
    (heq : ∀ base', base <+: base' → beneath base' entries = beneath base' entries') :
    Sound hashTree entries' base it := by
  intro base' node hnode
  obtain ⟨hsorted, hnames, hvalid⟩ := h base' node hnode
  refine ⟨hsorted, hnames, ?_⟩
  rw [← heq base' (NodeAt.base_begins hnode)]
  exact hvalid

/-- Below a directory there is nothing else than what is below those that it is in. -/
theorem below_below (hbase : base <+: base') : beneath base' (beneath base entries) = beneath base' entries := by
  rw [beneath, beneath, beneath, filter_filter]
  apply filter_congr
  intro e _
  cases hin : inLevel base' e with
  | false => rfl
  | true => rw [inLevel_up hbase hin]; rfl

/-- An invalid node with sound subtrees. -/
theorem Sound.invalid {oid : Oid} {down : Subtrees} (hsorted : SortedDown down)
    (hnames : ∀ sub ∈ down, 47 ∉ sub.1)
    (hdown : ∀ name sub, (name, some sub) ∈ down → Sound hashTree entries (subBase base name) sub) :
    Sound hashTree entries base (.node (-1) oid down) :=
  sound_iff.mpr ⟨⟨hsorted, hnames, fun hvalid => absurd hvalid (by simp [CacheTree.entryCount])⟩, hdown⟩

/-! ## Invalidation -/

/-- The two lists of entries are the same but for entries of this name. -/
def SameBut (path : Name) (entries entries' : List CacheEntry) : Prop :=
  (entries.filter fun e => e.name ≠ path) = entries'.filter fun e => e.name ≠ path

/-- A change is not seen below a directory that the name is not in. -/
theorem SameBut.below_eq (h : SameBut path entries entries')
    (hpath : ¬ base <+: path) : beneath base entries = beneath base entries' := by
  have hfilter : ∀ entries : List CacheEntry,
      beneath base entries = beneath base (entries.filter fun e => e.name ≠ path) := by
    intro entries
    rw [beneath, beneath, filter_filter]
    apply filter_congr
    intro e _
    cases hin : inLevel base e with
    | false => rfl
    | true =>
      have hne : e.name ≠ path := fun heq => hpath (heq ▸ (inLevel_iff.mp hin).2)
      simpa using hne
  rw [hfilter entries, hfilter entries', h]

/-- A subtree of another name does not see the change. -/
theorem Sound.of_sameBut {sub : CacheTree} (hsound : Sound hashTree entries (subBase base name) sub)
    (h : SameBut (base ++ path) entries entries') (hname : ¬ (name ++ [47]) <+: path) :
    Sound hashTree entries' (subBase base name) sub := by
  refine hsound.congr fun base' hbase => h.below_eq fun hcon => hname ?_
  have hcommon := hbase.trans hcon
  rwa [subBase, append_assoc, prefix_append_right_inj] at hcommon

/-- **Invalidating the path of a change** keeps a tree sound. By induction on the components of the
path; the directories that are not on it do not see the change. -/
theorem Sound.doInvalidatePath {fuel : Nat} (hfuel : path.length < fuel)
    (hsound : Sound hashTree entries base it) (h : SameBut (base ++ path) entries entries') :
    Sound hashTree entries' base (doInvalidatePath fuel it path) := by
  induction fuel generalizing it path base with
  | zero => exact absurd hfuel (Nat.not_lt_zero _)
  | succ fuel ih =>
    obtain ⟨entryCount, oid, down⟩ := it
    obtain ⟨⟨hsorted, hnames, -⟩, hdown⟩ := sound_iff.mp hsound
    change SortedDown down at hsorted
    change ∀ name sub, (name, some sub) ∈ down → _ at hdown
    rw [CacheTree.doInvalidatePath]
    split
    · -- the last component: no directory of this level is on the path
      rename_i hdrop
      have hslash : 47 ∉ path := by
        intro hmem
        have hall := dropWhile_eq_nil_iff.mp hdrop 47 hmem
        simp at hall
      have hsub : ∀ name sub, (name, some sub) ∈ down →
          Sound hashTree entries' (subBase base name) sub := by
        intro name sub hmem
        refine (hdown name sub hmem).of_sameBut h fun hcon => hslash (hcon.subset ?_)
        exact mem_append_right _ mem_cons_self
      split
      · refine .invalid (hsorted.sublist (eraseIdx_sublist _ _)) ?_ ?_
        · exact fun sub hmem => hnames sub (mem_of_mem_eraseIdx hmem)
        · exact fun name sub hmem => hsub name sub (mem_of_mem_eraseIdx hmem)
      · exact .invalid hsorted hnames hsub
    · rename_i c rest hdrop
      obtain ⟨dir, rfl, hdir⟩ := slash_split hdrop
      rw [takeWhile_slash hdir]
      -- a directory of this level is on the path if it is the next component
      have hsub : ∀ name sub, (name, some sub) ∈ down → name ≠ dir →
          Sound hashTree entries' (subBase base name) sub := by
        intro name sub hmem hne
        refine (hdown name sub hmem).of_sameBut h fun hcon => hne ?_
        exact slash_unique (hnames _ hmem) hdir hcon
      obtain ⟨pre, post, haround, ⟨tree, rfl, hpos⟩ | ⟨rfl, hpos⟩⟩ := hsorted.subtreePos dir
      · rw [hpos]
        dsimp only
        rw [modify_append_cons]
        refine .invalid (haround.sortedDown _) ?_ ?_
        · intro sub hmem
          rcases mem_cons.mp (perm_middle.mem_iff.mp hmem) with rfl | hmem
          · exact hdir
          · exact hnames sub (perm_middle.mem_iff.mpr (mem_cons_of_mem _ hmem))
        intro name sub hmem
        rcases mem_cons.mp (perm_middle.mem_iff.mp hmem) with heq | hmem
        · -- the subtree on the path
          obtain ⟨rfl, htree⟩ := Prod.mk.inj heq
          obtain ⟨sub', rfl, rfl⟩ := Option.map_eq_some_iff.mp htree.symm
          refine ih ?_ (hdown name sub' (by simp)) ?_
          · rw [length_append, length_cons] at hfuel
            omega
          · rwa [subBase, append_assoc, append_assoc, singleton_append]
        · exact hsub name sub (perm_middle.mem_iff.mpr (mem_cons_of_mem _ hmem)) (haround.ne hmem)
      · rw [hpos]
        exact .invalid hsorted hnames fun name sub hmem => hsub name sub hmem (haround.ne hmem)

end Sound

end GitCore.CacheTree
