import GitCore.CacheTree.Update
import GitCore.Lib.SortedList

/-! # Sessions

A session changes entries of the index, each time invalidating the cache-tree, and updates the
cache-tree now and then. Whatever the steps are, the valid nodes of the cache-tree are right. The
check for validity, however, asks for the opposite of what the update establishes. -/

namespace GitCore.CacheTree

open List Index

/-! ## Changes of the index -/

/-- The index with an entry added, or replaced if there is one of that name. -/
def setEntry (ce : CacheEntry) (entries : List CacheEntry) : List CacheEntry :=
  entries.filter (fun e => e.name < ce.name) ++ ce :: entries.filter fun e => ce.name < e.name

/-- The index without the entry of a name. -/
def removeEntry (name : Name) (entries : List CacheEntry) : List CacheEntry :=
  entries.filter fun e => e.name ≠ name

section Change

variable {entries : List CacheEntry} {ce : CacheEntry} {name : Name}

theorem Sorted.setEntry (h : Sorted entries) : Sorted (setEntry ce entries) := by
  refine pairwise_append.mpr ⟨h.sublist filter_sublist, ?_, ?_⟩
  · refine pairwise_cons.mpr ⟨fun e he => ?_, h.sublist filter_sublist⟩
    exact of_decide_eq_true (mem_filter.mp he).2
  grind

theorem Sorted.removeEntry (h : Sorted entries) : Sorted (removeEntry name entries) :=
  h.sublist filter_sublist

/-- The entries of other names come before or behind a name. -/
theorem Sorted.filter_ne (h : Sorted entries) (name : Name) :
    (entries.filter fun e => e.name ≠ name) =
      entries.filter (fun e => e.name < name) ++ entries.filter fun e => name < e.name := by
  conv_lhs => rw [(initial_lt h name).filter_append, filter_append, filter_filter, filter_filter]
  grind

/-- Setting an entry changes nothing else. -/
theorem Sorted.sameBut_setEntry (h : Sorted entries) :
    SameBut ce.name entries (CacheTree.setEntry ce entries) := by
  have hbefore : ((entries.filter fun e => e.name < ce.name).filter fun e => e.name ≠ ce.name) =
      entries.filter fun e => e.name < ce.name := by
    refine filter_eq_self.mpr fun e he => ?_
    grind
  have hbehind : ((entries.filter fun e => ce.name < e.name).filter fun e => e.name ≠ ce.name) =
      entries.filter fun e => ce.name < e.name := by
    refine filter_eq_self.mpr fun e he => ?_
    grind
  rw [SameBut, h.filter_ne, CacheTree.setEntry, filter_append,
    filter_cons_of_neg (by simp), hbefore, hbehind]

/-- Removing an entry changes nothing else. -/
theorem sameBut_removeEntry : SameBut name entries (removeEntry name entries) := by
  rw [SameBut, CacheTree.removeEntry, filter_filter]
  apply filter_congr
  intro e _
  rw [Bool.and_self]

end Change

/-! ## Sessions -/

/-- The index with its cache-tree, and the objects of the repository. -/
structure Session where
  entries : List CacheEntry
  tree : Option CacheTree
  objects : Objects

/-- A step of a session. -/
inductive Step
  /-- An entry is added or replaced, and its path invalidated. -/
  | set (ce : CacheEntry)
  /-- An entry is removed, and its path invalidated. -/
  | remove (name : Name)
  /-- The cache-tree is updated. -/
  | update (flags : WriteTreeFlags)

/-- An entry that sessions deal with. -/
structure Named (e : CacheEntry) : Prop extends Plain e where
  ne_nil : e.name ≠ []

/-- The step brings in nothing but such entries. -/
def Step.Ok : Step → Prop
  | .set ce => Named ce
  | .remove _ => True
  | .update _ => True

/-- The step. An update may fail. -/
def Session.step (repo : Repository) (session : Session) : Step → Except UpdateError Session
  | .set ce =>
    .ok { session with
      entries := setEntry ce session.entries
      tree := cacheTreeInvalidatePath session.tree ce.name }
  | .remove name =>
    .ok { session with
      entries := removeEntry name session.entries
      tree := cacheTreeInvalidatePath session.tree name }
  | .update flags =>
    match cacheTreeUpdate repo flags session.tree session.entries session.objects with
    | .error e => .error e
    | .ok updated => .ok { session with tree := some updated.tree, objects := updated.objects }

/-- The steps one after the other, with every update successful. -/
def Session.run (repo : Repository) (session : Session) : List Step → Except UpdateError Session
  | [] => .ok session
  | step :: steps =>
    match session.step repo step with
    | .error e => .error e
    | .ok session => session.run repo steps

/-- The index is sorted and the cache-tree sound. -/
structure Session.Inv (repo : Repository) (session : Session) : Prop where
  sorted : Sorted session.entries
  named : ∀ e ∈ session.entries, Named e
  sound : ∀ tree, session.tree = some tree → Sound repo.hashTree session.entries [] tree

section Session

variable {repo : Repository} {session session' : Session} {tree : Option CacheTree}
  {flags : WriteTreeFlags} {entries : List CacheEntry}

/-- All entries are below the top directory. -/
theorem Session.Inv.below_nil (h : session.Inv repo) :
    beneath [] session.entries = session.entries := by
  refine filter_eq_self.mpr fun e he => inLevel_iff.mpr ⟨?_, List.nil_prefix⟩
  exact length_pos_of_ne_nil (h.named e he).ne_nil

/-- The whole index, as an update gets it. -/
theorem Session.Inv.levelOf (h : session.Inv repo) : LevelOf [] session.entries [] where
  sorted := h.sorted
  inside := filter_eq_self.mp h.below_nil
  behind := fun e he => by cases he
  plain := by
    rw [append_nil]
    exact fun e he => (h.named e he).toPlain

/-- Invalidating the path of a change. -/
theorem sound_invalidate {entries' : List CacheEntry} {path : Name}
    (hsound : ∀ it, tree = some it → Sound repo.hashTree entries [] it)
    (hsame : SameBut path entries entries') :
    ∀ it, cacheTreeInvalidatePath tree path = some it → Sound repo.hashTree entries' [] it := by
  intro it hit
  obtain ⟨it', hit', rfl⟩ := Option.map_eq_some_iff.mp hit
  exact (hsound it' hit').doInvalidatePath (Nat.lt_succ_self _) hsame

/-- What a successful update does. -/
theorem Session.Inv.update {updated : Updated} (h : session.Inv repo)
    (hupdate : cacheTreeUpdate repo flags session.tree session.entries session.objects = .ok updated) :
    UpdatedFor repo flags session.entries [] updated := by
  rw [cacheTreeUpdate] at hupdate
  split at hupdate
  · rw [← append_nil session.entries] at hupdate
    refine updateOne_spec h.levelOf ?_ hupdate
    cases htree : session.tree with
    | none => exact sound_emptyTree
    | some tree => exact h.sound tree htree
  · cases hupdate

/-- Every step keeps the cache-tree sound. -/
theorem Session.Inv.step {step : Step} (h : session.Inv repo) (hok : step.Ok)
    (hstep : session.step repo step = .ok session') : session'.Inv repo := by
  cases step with
  | set ce =>
    obtain rfl := Except.ok.inj hstep
    refine ⟨h.sorted.setEntry, fun e he => ?_, ?_⟩
    · rcases mem_cons.mp (perm_middle.mem_iff.mp he) with rfl | he
      · exact hok
      · rcases mem_append.mp he with he | he <;> exact h.named e (mem_of_mem_filter he)
    · exact sound_invalidate h.sound h.sorted.sameBut_setEntry
  | remove name =>
    obtain rfl := Except.ok.inj hstep
    exact ⟨h.sorted.removeEntry, fun e he => h.named e (mem_of_mem_filter he),
      sound_invalidate h.sound sameBut_removeEntry⟩
  | update flags =>
    rw [Session.step] at hstep
    split at hstep
    · cases hstep
    rename_i updated hupdate
    obtain rfl := Except.ok.inj hstep
    refine ⟨h.sorted, h.named, fun tree htree => ?_⟩
    obtain rfl := Option.some.inj htree
    exact (h.update hupdate).sound

/-- Every run does. -/
theorem Session.Inv.run {steps : List Step} (h : session.Inv repo) (hok : ∀ step ∈ steps, step.Ok)
    (hrun : session.run repo steps = .ok session') : session'.Inv repo := by
  induction steps generalizing session with
  | nil =>
    obtain rfl := Except.ok.inj hrun
    exact h
  | cons step steps ih =>
    obtain ⟨hstep, hsteps⟩ := forall_mem_cons.mp hok
    rw [Session.run] at hrun
    split at hrun
    · cases hrun
    · rename_i next hnext
      exact ih (h.step hstep hnext) hsteps hrun

/-- The model of an update never runs out of fuel. -/
theorem cacheTreeUpdate_ne_outOfFuel {objects : Objects} :
    cacheTreeUpdate repo flags tree entries objects ≠ .error .outOfFuel := by
  rw [cacheTreeUpdate]
  split
  · refine updateOne_ne_outOfFuel (Nat.succ_pos _) fun e he => ?_
    rw [length_nil, Nat.zero_add]
    exact Nat.lt_succ_of_le (le_foldr_max (fun e : CacheEntry => e.name.length) he)
  · intro h
    cases h

end Session

/-- **The cache-tree is sound over a session.** From a sorted index without a cache-tree, after any
steps, each valid node has the number of index entries below its directory and the object id of the
tree that they make. After an update of an index without intent-to-add entries the root is valid,
unless the update was only to look for trees that exist already. -/
theorem session_sound (repo : Repository) (entries : List CacheEntry) (objects : Objects)
    (hsorted : Sorted entries) (hnamed : ∀ e ∈ entries, Named e) (steps : List Step)
    (hok : ∀ step ∈ steps, step.Ok) (session : Session)
    (hrun : Session.run repo ⟨entries, none, objects⟩ steps = .ok session) :
    (∀ tree, session.tree = some tree → ∀ base node, NodeAt [] tree base node →
      0 ≤ node.entryCount → node.entryCount = (beneath base session.entries).length ∧
        node.oid = repo.hashTree (treeBytes repo.hashTree base (beneath base session.entries))) ∧
    ∀ flags session', session.step repo (.update flags) = .ok session' → flags.repair = false →
      (∀ e ∈ session.entries, e.intentToAdd = false) →
      ∃ tree, session'.tree = some tree ∧ tree.entryCount = session'.entries.length ∧
        tree.oid = repo.hashTree (treeBytes repo.hashTree [] session'.entries) := by
  have hstart : Session.Inv repo ⟨entries, none, objects⟩ :=
    ⟨hsorted, hnamed, fun tree htree => by cases htree⟩
  have hinv := hstart.run hok hrun
  constructor
  · intro tree htree base node hnode hvalid
    exact (hinv.sound tree htree base node hnode).valid hvalid
  intro flags session' hstep hrepair hita
  rw [Session.step] at hstep
  split at hstep
  · cases hstep
  rename_i updated hupdate
  obtain rfl := Except.ok.inj hstep
  have hupdated := hinv.update hupdate
  have hroot := (hupdated.sound _ _ .here).valid (hupdated.valid hrepair hita)
  rw [hinv.below_nil] at hroot
  exact ⟨updated.tree, rfl, hroot⟩

/-- A repository for small examples: the id of a tree has a one and 19 times a checksum. -/
def smallRepository : Repository where
  hashTree bytes := 1 :: List.replicate 19 (bytes.foldl (fun sum b => 31 * sum + b) 0)
  nullOid := List.replicate 20 0
  hasPromisorRemote := false
  writeFails _ := false

/-- The object id of the files. -/
def smallOid : Oid := List.replicate 20 2

/-- A file in the index. -/
def smallEntry (name : Name) : CacheEntry where
  statData := ⟨⟨0, 0⟩, ⟨0, 0⟩, 0, 0, 0, 0, 0⟩
  mode := 0o100644
  oid := smallOid
  name := name
  stage := mergedStage
  valid := false
  intentToAdd := false
  skipWorktree := false
  remove := false
  stripName := false

/-- The files `d/a` and `f`. -/
def smallIndex : List CacheEntry := [smallEntry [100, 47, 97], smallEntry [102]]

/-- After an update the file `d/b` is added and `f` removed, and there is another update. -/
def smallSteps : List Step :=
  [.update ⟨false, false, false⟩, .set (smallEntry [100, 47, 98]), .remove [102],
    .update ⟨false, false, false⟩]

theorem named_smallEntry {name : Name} (h : name ≠ []) (hlast : name.getLast? ≠ some 47) :
    Named (smallEntry name) :=
  ⟨⟨rfl, rfl, hlast⟩, h⟩

theorem exists_of_isOk {α : Type} {result : Except UpdateError α} (h : result.isOk = true) :
    ∃ a, result = .ok a := by
  cases result with
  | error _ => cases h
  | ok a => exact ⟨a, rfl⟩

theorem session_sound_smallSteps : ∃ session,
    Session.run smallRepository ⟨smallIndex, none, fun oid => oid = smallOid⟩ smallSteps =
        .ok session ∧
      ∀ tree, session.tree = some tree → ∀ base node, NodeAt [] tree base node →
        0 ≤ node.entryCount → node.entryCount = (beneath base session.entries).length := by
  have hok : (Session.run smallRepository ⟨smallIndex, none, fun oid => oid = smallOid⟩
      smallSteps).isOk = true := by decide +kernel
  obtain ⟨session, hrun⟩ := exists_of_isOk hok
  refine ⟨session, hrun, fun tree htree base node hnode hvalid => ?_⟩
  refine ((session_sound smallRepository smallIndex (fun oid => oid = smallOid) ?_ ?_ smallSteps ?_ _
    hrun).1 tree htree base node hnode hvalid).1
  · exact pairwise_pair.mpr (by decide)
  · exact forall_mem_cons.mpr ⟨named_smallEntry (by decide) (by decide),
      forall_mem_singleton.mpr (named_smallEntry (by decide) (by decide))⟩
  · simp [smallSteps, Step.Ok, named_smallEntry]

/-- **An update with `WRITE_TREE_REPAIR`** of an index with one file succeeds and leaves the root as
it was, since the tree objects are not there. -/
theorem session_repair : ∃ session tree,
    Session.run smallRepository ⟨[smallEntry [102]], none, fun oid => oid = smallOid⟩
        [.update ⟨false, false, true⟩] = .ok session ∧
      session.tree = some tree ∧ tree.entryCount = -1 ∧
      tree.oid ≠ smallRepository.hashTree
        (treeBytes smallRepository.hashTree [] session.entries) := by
  refine ⟨_, _, rfl, rfl, rfl, fun h => ?_⟩
  exact absurd (List.cons.inj h).1 (by decide)

/-! ## The check for validity -/

/-- The tree is not `NULL`, and the property holds of each of its nodes. -/
inductive EveryNode (p : Int → Oid → Prop) : Option CacheTree → Prop
  | node {entryCount : Int} {oid : Oid} {down : Subtrees} (hnode : p entryCount oid)
    (hdown : ∀ sub ∈ down, EveryNode p sub.2) : EveryNode p (some (.node entryCount oid down))

section FullyValid

variable {p q : Int → Oid → Prop} {tree : Option CacheTree} {objects : Objects}

theorem EveryNode.root {it : CacheTree} (h : EveryNode p (some it)) : p it.entryCount it.oid := by
  cases h with
  | node hnode _ => exact hnode

theorem everyNode_and :
    EveryNode (fun count oid => p count oid ∧ q count oid) tree ↔
      EveryNode p tree ∧ EveryNode q tree := by
  constructor
  · intro h
    induction h with
    | node hnode _ ih =>
      exact ⟨.node hnode.1 fun sub hsub => (ih sub hsub).1, .node hnode.2 fun sub hsub => (ih sub hsub).2⟩
  · rintro ⟨hp, hq⟩
    induction hp with
    | node hnode _ ih =>
      cases hq with
      | node hnode' hdown' => exact .node ⟨hnode, hnode'⟩ fun sub hsub => ih sub hsub (hdown' sub hsub)

mutual

theorem fullyValid_iff : ∀ it, fullyValid objects it = true ↔
    EveryNode (fun count oid => 0 ≤ count ∧ objects oid = false) (some it)
  | .node entryCount oid down => by
    rw [fullyValid]
    constructor
    · intro h
      split at h
      · cases h
      rename_i hnode
      rw [not_or, not_lt, Bool.not_eq_true] at hnode
      exact .node hnode (fullyValidDown_iff down |>.mp h)
    · rintro ⟨⟩
      rename_i hnode hdown
      rw [if_neg (by rw [not_or, not_lt, Bool.not_eq_true]; exact hnode)]
      exact fullyValidDown_iff down |>.mpr hdown

theorem fullyValidDown_iff : ∀ down, fullyValidDown objects down = true ↔
    ∀ sub ∈ down, EveryNode (fun count oid => 0 ≤ count ∧ objects oid = false) sub.2
  | [] => by
    exact iff_of_true rfl nofun
  | (_, none) :: down => by
    rw [fullyValidDown, forall_mem_cons]
    exact iff_of_false (by decide) fun h => by cases h.1
  | (_, some it) :: down => by
    rw [fullyValidDown, forall_mem_cons, ← fullyValidDown_iff down, ← fullyValid_iff it]
    simp

end

/-- What the code checks: each node is valid, and its object is missing. -/
theorem cacheTreeFullyValid_iff : cacheTreeFullyValid objects tree = true ↔
    EveryNode (fun count oid => 0 ≤ count ∧ objects oid = false) tree := by
  cases tree with
  | none => exact iff_of_false Bool.false_ne_true fun h => by cases h
  | some it => exact fullyValid_iff it

/-- The tree is not fully valid for another reason than its objects, or some of its objects are there
and others are not. -/
def Mixed (objects : Objects) (tree : Option CacheTree) : Prop :=
  ¬ EveryNode (fun count _ => 0 ≤ count) tree ∨
    ¬ EveryNode (fun _ oid => objects oid = true) tree ∧
      ¬ EveryNode (fun _ oid => objects oid = false) tree

/-- Not all objects of a tree are both there and missing. -/
theorem not_everyNode_both : ¬ (EveryNode (fun _ oid => objects oid = true) tree ∧
    EveryNode (fun _ oid => objects oid = false) tree) := by
  rw [← everyNode_and]
  rintro ⟨⟨htrue, hfalse⟩, -⟩
  exact Bool.false_ne_true (hfalse.symm.trans htrue)

end FullyValid

/-- **The check for full validity** says whether each node is valid and has an existing object exactly
if the answer is no for a reason that does not depend on which way the existence is asked for. After
an update that is not a dry run its answer is always no. -/
theorem cacheTreeFullyValid_correct (objects : Objects) (tree : Option CacheTree) :
    ((cacheTreeFullyValid objects tree = true ↔
        EveryNode (fun count oid => 0 ≤ count ∧ objects oid = true) tree) ↔ Mixed objects tree) ∧
    ∀ (repo : Repository) (flags : WriteTreeFlags) (entries : List CacheEntry) (updated : Updated),
      (∀ e ∈ entries, e.name ≠ []) → flags.dryRun = false →
      cacheTreeUpdate repo flags tree entries objects = .ok updated →
      cacheTreeFullyValid updated.objects (some updated.tree) = false := by
  constructor
  · rw [cacheTreeFullyValid_iff, everyNode_and, everyNode_and, Mixed]
    have hboth := @not_everyNode_both tree objects
    tauto
  intro repo flags entries updated hnames hdry hupdate
  rw [cacheTreeUpdate] at hupdate
  split at hupdate
  · rw [Bool.eq_false_iff, ne_eq, cacheTreeFullyValid_iff]
    intro hevery
    obtain ⟨hcount, hmissing⟩ := hevery.root
    rcases updateOne_present hnames hdry hupdate with hpresent | hinvalid
    · exact Bool.false_ne_true (hmissing.symm.trans hpresent)
    · exact absurd hcount (not_le.mpr hinvalid)
  · cases hupdate

/-- Two updates, with a file removed between them. -/
theorem cacheTreeFullyValid_correct_smallIndex : ∃ updated updated',
    cacheTreeUpdate smallRepository ⟨false, false, false⟩ none smallIndex (fun oid => oid = smallOid) =
        .ok updated ∧
      cacheTreeUpdate smallRepository ⟨false, false, false⟩
        (cacheTreeInvalidatePath (some updated.tree) [102]) (removeEntry [102] smallIndex)
        updated.objects = .ok updated' ∧
      cacheTreeFullyValid updated'.objects (some updated'.tree) = false := by
  have hok : (cacheTreeUpdate smallRepository ⟨false, false, false⟩ none smallIndex
      (fun oid => oid = smallOid)).toOption.any (fun updated => (cacheTreeUpdate smallRepository
        ⟨false, false, false⟩ (cacheTreeInvalidatePath (some updated.tree) [102])
          (removeEntry [102] smallIndex) updated.objects).isOk) = true := by decide +kernel
  cases hfirst : cacheTreeUpdate smallRepository ⟨false, false, false⟩ none smallIndex
      (fun oid => oid = smallOid) with
  | error _ =>
    rw [hfirst] at hok
    cases hok
  | ok updated =>
    rw [hfirst] at hok
    obtain ⟨updated', hsecond⟩ := exists_of_isOk hok
    exact ⟨updated, updated', rfl, hsecond, (cacheTreeFullyValid_correct _ _).2 smallRepository _ _ _
      (by decide) rfl hsecond⟩

/-- **A node that is valid and whose object exists** is not fully valid for the code. -/
theorem cacheTreeFullyValid_present :
    EveryNode (fun count oid => 0 ≤ count ∧ (fun _ => true : Objects) oid = true)
        (some (.node 1 [1] [])) ∧
      cacheTreeFullyValid (fun _ => true) (some (.node 1 [1] [])) = false := by
  refine ⟨.node ⟨by decide, rfl⟩ nofun, ?_⟩
  decide

end GitCore.CacheTree
